import Statecraft.Proofs.Scanning

/-! Regular expressions, and those that the patterns of tokens stand for. Choices are tried in the
order in which they are written and repetitions as long as possible, and the first match that is
found counts. For the patterns of tokens there is no longer one, and it is as long as the pattern
says. -/
namespace Statecraft

/-- A place in a text: the characters before it, last first, and those from it on. -/
structure Place where
  before : List Char
  rest : List Char

inductive Regexp where
  | empty
  /-- A character of a class. -/
  | one (accepts : Char → Bool)
  /-- Characters of a class, as many as possible. -/
  | many (accepts : Char → Bool)
  /-- A name character stands on one side only. -/
  | boundary
  | seq (first second : Regexp)
  /-- The first alternative is preferred. -/
  | alt (first second : Regexp)

namespace Regexp

/-- Where characters of a class can end, as many as possible first. -/
def runEnds (accepts : Char → Bool) (before : List Char) : List Char → List Place
  | [] => [⟨before, []⟩]
  | c :: rest =>
      if accepts c then runEnds accepts (c :: before) rest ++ [⟨before, c :: rest⟩]
      else [⟨before, c :: rest⟩]

/-- Where the matches from a place on end, in the order in which they are found. -/
def ends : Regexp → Place → List Place
  | empty, p => [p]
  | one _, ⟨_, []⟩ => []
  | one accepts, ⟨before, c :: rest⟩ => if accepts c then [⟨c :: before, rest⟩] else []
  | many accepts, p => runEnds accepts p.before p.rest
  | boundary, p =>
      if p.before.head?.any isNameRest = p.rest.head?.any isNameRest then [] else [p]
  | seq first second, p => (first.ends p).flatMap second.ends
  | alt first second, p => first.ends p ++ second.ends p

/-- How many characters the matches at the start of a text cover, in the order in which they are
found. -/
def lengths (r : Regexp) (cs : List Char) : List Nat :=
  (r.ends ⟨[], cs⟩).map fun p => p.before.length

def match? (r : Regexp) (cs : List Char) : Option Nat := (r.lengths cs).head?

def never : Regexp := one fun _ => false

/-- Characters of a class, at least one and as many as possible. -/
def plus (accepts : Char → Bool) : Regexp := seq (one accepts) (many accepts)

def optional (r : Regexp) : Regexp := alt r empty

def literal : List Char → Regexp
  | [] => empty
  | c :: text => seq (one (· == c)) (literal text)

def choice : List (List Char) → Regexp
  | [] => never
  | [text] => literal text
  | text :: texts => alt (literal text) (choice texts)

end Regexp

/-- The regular expression of a pattern. In the usual notation these are `\s+`, `#.*\n?`, the text
itself, `\b(…|…)\b`, `\d+(\.\d+)?`, `'[^']*'`, `\b[a-zA-Z_][a-zA-Z0-9_]*\b`, and one without a
match. -/
def Pattern.regexp : Pattern → Regexp
  | blanks => .plus isBlank
  | comment => .seq (.one (· == '#')) (.seq (.many (· ≠ '\n')) (.optional (.one (· == '\n'))))
  | symbol text => .literal text
  | words choices => .seq .boundary (.seq (.choice choices) .boundary)
  | number =>
      .seq (.plus Char.isDigit)
        (.optional (.seq (.one (· == '.')) (.plus Char.isDigit)))
  | quotation => .seq (.one (· == '\'')) (.seq (.many (· ≠ '\'')) (.one (· == '\'')))
  | name => .seq .boundary (.seq (.one isNameStart) (.seq (.many isNameRest) .boundary))
  | nothing => .never

namespace Regexp

variable {r s : Regexp} {p q t : Place} {accepts : Char → Bool} {c : Char}
  {before cs rest run text : List Char} {n : Nat}

/-- The match that counts ends at `q`, and none ends behind it. -/
structure Longest (r : Regexp) (p q : Place) : Prop where
  preferred : (r.ends p).head? = some q
  most : ∀ q' ∈ r.ends p, q'.before.length ≤ q.before.length

/-- The match that counts covers `n` characters, and none covers more. There may be none, and then
`n` is zero. -/
def Covers (r : Regexp) (cs : List Char) (n : Nat) : Prop :=
  (∃ q, r.Longest ⟨[], cs⟩ q ∧ q.before.length = n) ∨ r.ends ⟨[], cs⟩ = [] ∧ n = 0

theorem Covers.match?_eq (covers : r.Covers cs n) : (r.match? cs).getD 0 = n := by
  rcases covers with ⟨q, longest, rfl⟩ | ⟨none, rfl⟩
  · simp [match?, lengths, longest.preferred]
  · simp [match?, lengths, none]

theorem Covers.le (covers : r.Covers cs n) {m : Nat} (found : m ∈ r.lengths cs) : m ≤ n := by
  obtain ⟨q', ended, rfl⟩ := List.mem_map.mp found
  rcases covers with ⟨q, longest, rfl⟩ | ⟨none, rfl⟩
  · exact longest.most q' ended
  · simp [none] at ended

theorem Covers.mem (covers : r.Covers cs n) (positive : n ≠ 0) : n ∈ r.lengths cs := by
  rcases covers with ⟨q, longest, rfl⟩ | ⟨-, zero⟩
  · exact List.mem_map_of_mem (List.mem_of_head? longest.preferred)
  · contradiction

theorem covers_of_nil (none : r.ends ⟨[], cs⟩ = []) : r.Covers cs 0 := .inr ⟨none, rfl⟩

theorem longest_single (single : r.ends p = [q]) : r.Longest p q where
  preferred := by rw [single]; rfl
  most := by simp [single]

theorem ends_seq (r s : Regexp) (p : Place) : (seq r s).ends p = (r.ends p).flatMap s.ends := rfl

/-- A match can be replaced by what it leads to, if it is the only one. -/
theorem ends_seq_of_single (single : r.ends p = [q]) : (seq r s).ends p = s.ends q := by
  simp [ends, single]

theorem ends_seq_of_nil (none : r.ends p = []) : (seq r s).ends p = [] := by
  simp [ends, none]

/-- Only the ends matter. -/
theorem Longest.of_ends {r' : Regexp} {p' : Place} (longest : r.Longest p t)
    (same : r'.ends p' = r.ends p) : r'.Longest p' t where
  preferred := by rw [same]; exact longest.preferred
  most := by rw [same]; exact longest.most

theorem longest_seq_of_single (single : r.ends p = [q]) (longest : s.Longest q t) :
    (seq r s).Longest p t :=
  longest.of_ends (ends_seq_of_single single)

theorem longest_seq_assoc {u : Regexp} (longest : (seq r (seq s u)).Longest p t) :
    (seq (seq r s) u).Longest p t :=
  longest.of_ends (by simp [ends, List.flatMap_assoc])

theorem ends_one (accepted : accepts c = true) :
    (one accepts).ends ⟨before, c :: rest⟩ = [⟨c :: before, rest⟩] := by
  simp [ends, accepted]

theorem ends_one_of_not (refused : cs.head?.any accepts = false) :
    (one accepts).ends ⟨before, cs⟩ = [] := by
  cases cs <;> simp_all [ends]

theorem starts_or_not (accepts : Char → Bool) (cs : List Char) :
    (∃ c rest, cs = c :: rest ∧ accepts c = true) ∨ cs.head?.any accepts = false := by
  cases cs with
  | nil => exact .inr rfl
  | cons c rest => cases accepted : accepts c <;> simp [accepted]

/-- The characters before the rest are all that a class can read. -/
structure Run (accepts : Char → Bool) (run rest : List Char) : Prop where
  inside : run.all accepts = true
  stopped : rest.head?.any accepts = false

theorem Run.takeWhile (all : Run accepts run rest) : (run ++ rest).takeWhile accepts = run :=
  TokenKind.takeWhile_exact all.inside all.stopped

theorem exists_run (accepts : Char → Bool) (cs : List Char) :
    ∃ run rest, cs = run ++ rest ∧ Run accepts run rest := by
  induction cs with
  | nil => exact ⟨[], [], rfl, rfl, rfl⟩
  | cons c cs ih =>
    cases accepted : accepts c with
    | false => exact ⟨[], c :: cs, rfl, rfl, by simp [accepted]⟩
    | true =>
      obtain ⟨run, rest, rfl, all⟩ := ih
      exact ⟨c :: run, rest, rfl, by simp [accepted, all.inside], all.stopped⟩

/-- As many characters of a class as possible come first, and after fewer of them there is another
one. -/
theorem Run.ends (all : Run accepts run rest) (before : List Char) :
    ∃ others, runEnds accepts before (run ++ rest) = ⟨run.reverse ++ before, rest⟩ :: others ∧
      ∀ q ∈ others, q.before.length < before.length + run.length ∧
        q.rest.head?.any accepts = true := by
  obtain ⟨inside, stopped⟩ := all
  induction run generalizing before with
  | nil =>
    refine ⟨[], ?_, by simp⟩
    cases rest with
    | nil => rfl
    | cons c rest =>
      rw [List.head?_cons, Option.any_some] at stopped
      simp [runEnds, stopped]
  | cons c run ih =>
    rw [List.all_cons, Bool.and_eq_true] at inside
    obtain ⟨others, same, fewer⟩ := ih (c :: before) inside.2
    refine ⟨others ++ [⟨before, c :: (run ++ rest)⟩], by simp [runEnds, inside.1, same], ?_⟩
    intro q member
    rcases List.mem_append.mp member with member | member
    · obtain ⟨less, another⟩ := fewer q member
      rw [List.length_cons] at less ⊢
      exact ⟨by omega, another⟩
    · obtain rfl := List.mem_singleton.mp member
      simp [inside.1]

/-- After a run of a class goes on what does not read characters of the class. -/
theorem Run.longest (all : Run accepts run rest)
    (stays : ∀ q : Place, q.rest.head?.any accepts = true → ∀ t ∈ s.ends q, t = q)
    (last : s.Longest ⟨run.reverse ++ before, rest⟩ t)
    (forward : before.length + run.length ≤ t.before.length) :
    (seq (many accepts) s).Longest ⟨before, run ++ rest⟩ t := by
  obtain ⟨others, same, fewer⟩ := all.ends before
  constructor
  · simp [Regexp.ends, same, List.head?_append, last.preferred]
  · simp only [Regexp.ends, same, List.flatMap_cons, List.mem_append, List.mem_flatMap]
    rintro t' (ended | ⟨q, member, ended⟩)
    · exact last.most t' ended
    · obtain ⟨less, another⟩ := fewer q member
      rw [stays q another t' ended]
      omega

theorem Run.ends_nil (all : Run accepts run rest)
    (refuses : ∀ q : Place, q.rest.head?.any accepts = true → s.ends q = [])
    (last : s.ends ⟨run.reverse ++ before, rest⟩ = []) :
    (seq (many accepts) s).ends ⟨before, run ++ rest⟩ = [] := by
  obtain ⟨others, same, fewer⟩ := all.ends before
  simp only [Regexp.ends, same, List.flatMap_cons, last, List.nil_append,
    List.flatMap_eq_nil_iff]
  exact fun q member => refuses q (fewer q member).2

theorem Run.longest_many (all : Run accepts run rest) :
    (many accepts).Longest ⟨before, run ++ rest⟩ ⟨run.reverse ++ before, rest⟩ := by
  obtain ⟨others, same, fewer⟩ := all.ends before
  constructor
  · simp [Regexp.ends, same]
  · simp only [Regexp.ends, same, List.forall_mem_cons]
    constructor
    · exact Nat.le_refl _
    · intro q member
      have less := (fewer q member).1
      simp only [List.length_append, List.length_reverse]
      omega

theorem longest_optional (longest : r.Longest p q) (forward : p.before.length ≤ q.before.length) :
    (optional r).Longest p q where
  preferred := by simp [optional, ends, List.head?_append, longest.preferred]
  most := by simpa [optional, ends, or_imp, forall_and] using ⟨longest.most, forward⟩

theorem longest_optional_of_nil (none : r.ends p = []) : (optional r).Longest p p :=
  longest_single (by simp [optional, ends, none])

theorem ends_literal (text before cs : List Char) :
    (literal text).ends ⟨before, cs⟩ =
      if text.isPrefixOf cs then [⟨text.reverse ++ before, cs.drop text.length⟩] else [] := by
  induction text generalizing before cs with
  | nil => simp [literal, ends]
  | cons c text ih =>
    cases cs with
    | nil => simp [literal, ends]
    | cons d rest =>
      by_cases same : d = c
      · subst same
        have step : (one (· == d)).ends ⟨before, d :: rest⟩ = [⟨d :: before, rest⟩] :=
          ends_one (beq_self_eq_true d)
        rw [literal, ends_seq_of_single step, ih]
        simp
      · have other : ¬c = d := fun eq => same eq.symm
        simp [literal, ends, same, other]

theorem ends_choice (texts : List (List Char)) (p : Place) :
    (choice texts).ends p = texts.flatMap fun text => (literal text).ends p := by
  induction texts with
  | nil => cases p with | mk before rest => cases rest <;> simp [choice, never, ends]
  | cons text texts ih =>
    cases texts with
    | nil => simp [choice]
    | cons => simp [choice, ends, ih]

/-- Name characters end where no other one follows. -/
theorem ends_boundary (filled : before ≠ []) (inside : before.all isNameRest = true) :
    boundary.ends ⟨before, rest⟩ =
      if rest.head?.any isNameRest then [] else [⟨before, rest⟩] := by
  obtain ⟨c, more, rfl⟩ := List.exists_cons_of_ne_nil filled
  rw [List.all_cons, Bool.and_eq_true] at inside
  cases next : rest.head?.any isNameRest <;> simp [ends, inside.1, next]

theorem ends_boundary_first (cs : List Char) :
    boundary.ends ⟨[], cs⟩ = if cs.head?.any isNameRest then [⟨[], cs⟩] else [] := by
  cases next : cs.head?.any isNameRest <;> simp [ends, next]

theorem boundary_stays {q t : Place} (ended : t ∈ boundary.ends q) : t = q := by
  simp only [ends] at ended
  split at ended
  · contradiction
  · exact List.mem_singleton.mp ended

theorem optional_stays (none : r.ends q = []) : ∀ t ∈ (optional r).ends q, t = q := by
  simp [optional, ends, none]

/-- What stands next is not in both of two classes. -/
theorem ends_one_of_other {q : Place} (next : q.rest.head?.any accepts = true)
    {refuses : Char → Bool} (apart : ∀ c, accepts c = true → refuses c = false) :
    (one refuses).ends q = [] := by
  obtain ⟨before, cs⟩ := q
  cases cs with
  | nil => rfl
  | cons c cs => simpa [ends] using apart c next

end Regexp

namespace Pattern

open Regexp

variable {accepts : Char → Bool} {before cs rest run : List Char} {c : Char}
  {choices : List (List Char)}

/-- The longest match of a class that reads the first character. -/
theorem longest_plus (all : Run accepts (c :: run) rest) :
    (plus accepts).Longest ⟨before, c :: (run ++ rest)⟩ ⟨run.reverse ++ c :: before, rest⟩ := by
  obtain ⟨accepted, inside⟩ := by simpa using all.inside
  have more : Run accepts run rest := ⟨by simpa using inside, all.stopped⟩
  exact longest_seq_of_single (ends_one accepted) more.longest_many

theorem ends_plus_nil (refused : cs.head?.any accepts = false) :
    (plus accepts).ends ⟨before, cs⟩ = [] :=
  ends_seq_of_nil (ends_one_of_not refused)

theorem covers_blanks (cs : List Char) : blanks.regexp.Covers cs (blanks.length cs) := by
  obtain ⟨run, rest, rfl, all⟩ := exists_run isBlank cs
  simp only [Pattern.length, all.takeWhile]
  cases run with
  | nil => exact covers_of_nil (ends_plus_nil all.stopped)
  | cons c run => exact .inl ⟨_, longest_plus all, by simp⟩

/-- The newline belongs to the comment, if there is one. -/
theorem covers_comment (cs : List Char) : comment.regexp.Covers cs (comment.length cs) := by
  obtain ⟨c, rest, rfl, hash⟩ | refused := starts_or_not (· == '#') cs
  · obtain rfl : c = '#' := by simpa using hash
    obtain ⟨line, rest, rfl, all⟩ := exists_run (· ≠ '\n') rest
    have stays : ∀ q : Place, q.rest.head?.any (· ≠ '\n') = true →
        ∀ t ∈ (optional (one (· == '\n'))).ends q, t = q := by
      intro q next
      exact optional_stays (ends_one_of_other next (by simp))
    have covered : comment.length ('#' :: (line ++ rest)) =
        1 + line.length + if rest.isEmpty then 0 else 1 := by
      simp only [Pattern.length, all.takeWhile, List.drop_left]
    rw [covered]
    cases rest with
    | nil =>
      have final : (optional (one (· == '\n'))).Longest ⟨line.reverse ++ ['#'], []⟩
          ⟨line.reverse ++ ['#'], []⟩ := longest_optional_of_nil rfl
      exact .inl ⟨_, longest_seq_of_single (ends_one rfl)
        (all.longest stays final (by simp; omega)), by simp; omega⟩
    | cons d more =>
      obtain rfl : d = '\n' := by simpa using all.stopped
      have final : (optional (one (· == '\n'))).Longest ⟨line.reverse ++ ['#'], '\n' :: more⟩
          ⟨'\n' :: (line.reverse ++ ['#']), more⟩ :=
        longest_optional (longest_single rfl) (by simp)
      exact .inl ⟨_, longest_seq_of_single (ends_one rfl)
        (all.longest stays final (by simp; omega)), by simp; omega⟩
  · have zero : comment.length cs = 0 := by
      cases cs <;> simp_all [Pattern.length]
    rw [zero]
    exact covers_of_nil (ends_seq_of_nil (ends_one_of_not refused))

theorem covers_symbol (text cs : List Char) :
    (symbol text).regexp.Covers cs ((symbol text).length cs) := by
  have found := ends_literal text [] cs
  cases starts : text.isPrefixOf cs with
  | true =>
    rw [starts, if_pos rfl] at found
    exact .inl ⟨_, longest_single found, by simp [Pattern.length, starts]⟩
  | false =>
    have zero : (symbol text).length cs = 0 := by simp [Pattern.length, starts]
    rw [starts, if_neg Bool.false_ne_true] at found
    rw [zero]
    exact covers_of_nil found

/-- After its whole part: a point belongs to the number only if there are digits after it. -/
theorem longest_fraction {whole : List Char} (all : Run Char.isDigit (c :: whole) rest) :
    ∃ t, (optional (seq (one (· == '.')) (plus Char.isDigit))).Longest
        ⟨whole.reverse ++ [c], rest⟩ t ∧
      (c :: whole).length ≤ t.before.length ∧
      t.before.length = number.length (c :: whole ++ rest) := by
  have filled : (c :: whole).length ≠ 0 := Nat.succ_ne_zero _
  have counted : (whole.reverse ++ [c]).length = (c :: whole).length := by simp
  simp only [Pattern.length, all.takeWhile, List.drop_left, filled, if_false]
  split
  · rename_i more
    obtain ⟨places, rest, rfl, fraction⟩ := exists_run Char.isDigit more
    simp only [fraction.takeWhile]
    cases places with
    | nil =>
      refine ⟨_, longest_optional_of_nil ?_, Nat.le_of_eq counted.symm, counted⟩
      rw [ends_seq_of_single (ends_one rfl)]
      exact ends_plus_nil fraction.stopped
    | cons d places =>
      exact ⟨_, longest_optional (longest_seq_of_single (ends_one rfl) (longest_plus fraction))
        (by simp; omega), by simp; omega, by simp; omega⟩
  · rename_i other
    obtain ⟨d, more, rfl, point⟩ | refused := starts_or_not (· == '.') rest
    · exact absurd (by simpa using point) (other more)
    · exact ⟨_, longest_optional_of_nil (ends_seq_of_nil (ends_one_of_not refused)),
        Nat.le_of_eq counted.symm, counted⟩

theorem covers_number (cs : List Char) : number.regexp.Covers cs (number.length cs) := by
  obtain ⟨whole, rest, rfl, all⟩ := exists_run Char.isDigit cs
  cases whole with
  | nil =>
    have zero : number.length ([] ++ rest) = 0 := by
      simp only [Pattern.length, all.takeWhile, List.length_nil, if_true]
    rw [zero]
    exact covers_of_nil (ends_seq_of_nil (ends_plus_nil all.stopped))
  | cons c whole =>
    obtain ⟨digit, inside⟩ := by simpa using all.inside
    have more : Run Char.isDigit whole rest := ⟨by simpa using inside, all.stopped⟩
    obtain ⟨t, final, further, size⟩ := longest_fraction all
    have stays : ∀ q : Place, q.rest.head?.any Char.isDigit = true →
        ∀ t ∈ (optional (seq (one (· == '.')) (plus Char.isDigit))).ends q, t = q := by
      intro q next
      apply optional_stays
      apply ends_seq_of_nil
      apply ends_one_of_other next
      intro d digit
      rw [beq_eq_false_iff_ne]
      rintro rfl
      contradiction
    have forward : [c].length + whole.length ≤ t.before.length := by
      simp only [List.length_cons, List.length_nil] at further ⊢
      omega
    exact .inl ⟨t, longest_seq_assoc (longest_seq_of_single (ends_one digit)
      (more.longest stays final forward)), size⟩

/-- The text ends with its quote, or is none. -/
theorem covers_quotation (cs : List Char) : quotation.regexp.Covers cs (quotation.length cs) := by
  obtain ⟨c, rest, rfl, quote⟩ | refused := starts_or_not (· == '\'') cs
  · obtain rfl : c = '\'' := by simpa using quote
    obtain ⟨inside, rest, rfl, all⟩ := exists_run (· ≠ '\'') rest
    have refuses : ∀ q : Place, q.rest.head?.any (· ≠ '\'') = true →
        (one (· == '\'')).ends q = [] := by
      intro q next
      exact ends_one_of_other next (by simp)
    have covered : quotation.length ('\'' :: (inside ++ rest)) =
        if rest.isEmpty then 0 else inside.length + 2 := by
      simp only [Pattern.length, all.takeWhile, List.drop_left]
    rw [covered]
    cases rest with
    | nil =>
      apply covers_of_nil
      rw [Pattern.regexp, ends_seq_of_single (ends_one rfl)]
      exact all.ends_nil refuses rfl
    | cons d more =>
      obtain rfl : d = '\'' := by simpa using all.stopped
      have final : (one (· == '\'')).Longest ⟨inside.reverse ++ ['\''], '\'' :: more⟩
          ⟨'\'' :: (inside.reverse ++ ['\'']), more⟩ := longest_single rfl
      refine .inl ⟨_, longest_seq_of_single (ends_one rfl)
        (all.longest ?_ final (by simp; omega)), by simp⟩
      intro q next t ended
      simp [refuses q next] at ended
  · have zero : quotation.length cs = 0 := by
      cases cs <;> simp_all [Pattern.length]
    rw [zero]
    exact covers_of_nil (ends_seq_of_nil (ends_one_of_not refused))

theorem takeWhile_of_wordAt {word : List Char} (letters : word.all isNameRest = true)
    (found : wordAt word cs = true) : cs.takeWhile isNameRest = word := by
  simp only [wordAt, Bool.and_eq_true, Bool.not_eq_true'] at found
  obtain ⟨rest, rfl⟩ := List.isPrefixOf_iff_prefix.mp found.1
  rw [List.drop_left] at found
  exact TokenKind.takeWhile_exact letters found.2

/-- One word, once its first character has been found to start a word. -/
theorem ends_word {word : List Char} (filled : word ≠ []) (letters : word.all isNameRest = true)
    (cs : List Char) : ((literal word).ends ⟨[], cs⟩).flatMap boundary.ends =
      if wordAt word cs then [⟨word.reverse, cs.drop word.length⟩] else [] := by
  have after : boundary.ends ⟨word.reverse, cs.drop word.length⟩ = _ :=
    ends_boundary (by simpa using filled) (by simpa using letters)
  rw [ends_literal, List.append_nil]
  cases starts : word.isPrefixOf cs <;>
    cases next : (cs.drop word.length).head?.any isNameRest <;>
    simp_all [wordAt]

theorem ends_words (proper : ∀ word ∈ choices, word ≠ [] ∧ word.all isNameRest = true)
    (cs : List Char) : (words choices).regexp.ends ⟨[], cs⟩ =
      (choices.filter (wordAt · cs)).map fun word => ⟨word.reverse, cs.drop word.length⟩ := by
  rw [Pattern.regexp, ends_seq, ends_boundary_first]
  cases starts : cs.head?.any isNameRest with
  | true =>
    simp only [if_true, List.flatMap_singleton, ends_seq, ends_choice, List.flatMap_assoc]
    induction choices with
    | nil => rfl
    | cons word choices ih =>
      rw [List.forall_mem_cons] at proper
      obtain ⟨⟨filled, letters⟩, others⟩ := proper
      rw [List.flatMap_cons, ih others, ends_word filled letters, List.filter_cons]
      split <;> rfl
  | false =>
    -- The text starts with no name character, and every word does.
    have none : choices.filter (wordAt · cs) = [] := by
      rw [List.filter_eq_nil_iff]
      intro word member found
      obtain ⟨filled, letters⟩ := proper word member
      have run := takeWhile_of_wordAt letters found
      cases cs with
      | nil => exact filled run.symm
      | cons c cs =>
        rw [List.head?_cons, Option.any_some] at starts
        simp only [List.takeWhile_cons, starts] at run
        exact filled run.symm
    rw [none]
    rfl

/-- Two words at the same place are equally long. -/
theorem covers_words (proper : ∀ word ∈ choices, word ≠ [] ∧ word.all isNameRest = true)
    (cs : List Char) : (words choices).regexp.Covers cs ((words choices).length cs) := by
  have found := ends_words proper cs
  have same : ∀ word ∈ choices.filter (wordAt · cs), cs.takeWhile isNameRest = word := by
    intro word member
    rw [List.mem_filter] at member
    exact takeWhile_of_wordAt (proper word member.1).2 member.2
  simp only [Pattern.length, ← List.head?_filter]
  cases listed : choices.filter (wordAt · cs) with
  | nil =>
    rw [listed] at found
    exact covers_of_nil found
  | cons word others =>
    rw [listed] at found same
    refine .inl ⟨⟨word.reverse, cs.drop word.length⟩, ⟨by rw [found]; rfl, ?_⟩, by simp⟩
    rw [found]
    intro q ended
    obtain ⟨other, member, rfl⟩ := List.mem_map.mp ended
    obtain rfl : other = word := (same other member).symm.trans (same word List.mem_cons_self)
    exact Nat.le_refl _

theorem covers_name (cs : List Char) : name.regexp.Covers cs (name.length cs) := by
  obtain ⟨c, rest, rfl, starts⟩ | refused := starts_or_not isNameStart cs
  · have letter := isNameRest_of_start starts
    obtain ⟨run, rest, rfl, all⟩ := exists_run isNameRest rest
    have first : boundary.ends ⟨[], c :: (run ++ rest)⟩ = [⟨[], c :: (run ++ rest)⟩] := by
      simp [ends_boundary_first, letter]
    have final : boundary.Longest ⟨run.reverse ++ [c], rest⟩ ⟨run.reverse ++ [c], rest⟩ := by
      apply longest_single
      rw [ends_boundary (by simp) (by simpa [letter] using all.inside)]
      simp [all.stopped]
    have covered : name.length (c :: (run ++ rest)) = 1 + run.length := by
      simp only [Pattern.length, starts, if_true, all.takeWhile]
    rw [covered]
    exact .inl ⟨_, longest_seq_of_single first (longest_seq_of_single (ends_one starts)
      (all.longest (fun _ _ _ => boundary_stays) final (by simp; omega))), by simp; omega⟩
  · have zero : name.length cs = 0 := by
      cases cs <;> simp_all [Pattern.length]
    rw [zero]
    apply covers_of_nil
    rw [Pattern.regexp, ends_seq, ends_boundary_first]
    split
    · simp [ends_seq, ends_one_of_not refused]
    · rfl

end Pattern
end Statecraft
