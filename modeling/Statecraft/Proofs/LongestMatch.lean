import Statecraft.Proofs.Regexp
import Statecraft.Proofs.Tiling

/-! The first kind that covers something is the earliest of those that cover the most. Kinds whose
tokens start with different characters never compete. Of two symbols that do the longer one is
declared first, and all kinds that read letters cover the same run of them. -/
namespace Statecraft

/-- What the first character of a token says about its kind. -/
inductive Lead where
  | blank | hash | letter | digit | quote | other
deriving DecidableEq

def Lead.of (c : Char) : Lead :=
  if isBlank c then .blank else if c = '#' then .hash else if isNameStart c then .letter
  else if c.isDigit then .digit else if c = '\'' then .quote else .other

namespace Pattern

/-- How what the pattern covers starts. -/
def lead : Pattern → Lead
  | blanks => .blank
  | comment => .hash
  | symbol _ | nothing => .other
  | words _ | name => .letter
  | number => .digit
  | quotation => .quote

/-- Words are made of name characters and start like names, and symbols start like nothing else. -/
def proper : Pattern → Bool
  | symbol text => text.head?.any fun c => Lead.of c == .other
  | words choices => choices.all fun word => word.head?.any isNameStart && word.all isNameRest
  | _ => true

/-- The later pattern covers nothing, or no more, where the earlier one covers something. -/
def outranks : Pattern → Pattern → Bool
  | symbol text, symbol later => !text.isPrefixOf later
  | words _, words _ | words _, name => true
  | earlier, later => earlier.lead != later.lead

def spellings : Pattern → List (List Char)
  | words choices => choices
  | _ => []

variable {p q : Pattern} {c : Char} {cs rest text word : List Char} {choices : List (List Char)}

theorem words_proper (proper : (words choices).proper = true) (member : word ∈ choices) :
    word.head?.any isNameStart = true ∧ word.all isNameRest = true := by
  simp only [Pattern.proper, List.all_eq_true, Bool.and_eq_true] at proper
  simpa using proper word member

theorem filled_of_starts (starts : word.head?.any isNameStart = true) : word ≠ [] := by
  rintro rfl
  contradiction

theorem covers (proper : p.proper = true) (cs : List Char) :
    p.regexp.Covers cs (p.length cs) := by
  cases p with
  | blanks => exact covers_blanks cs
  | comment => exact covers_comment cs
  | symbol text => exact covers_symbol text cs
  | words choices =>
    apply covers_words
    intro word member
    obtain ⟨starts, letters⟩ := words_proper proper member
    exact ⟨filled_of_starts starts, letters⟩
  | number => exact covers_number cs
  | quotation => exact covers_quotation cs
  | name => exact covers_name cs
  | nothing => exact Regexp.covers_of_nil (Regexp.ends_one_of_not (by cases cs <;> rfl))

theorem wordAt_run (cs : List Char) : wordAt (cs.takeWhile isNameRest) cs = true := by
  obtain ⟨run, rest, rfl, all⟩ := Regexp.exists_run isNameRest cs
  simp [wordAt, all.takeWhile, all.stopped]

/-- Words cover the run of name characters, or nothing. -/
theorem length_words (proper : (words choices).proper = true) (cs : List Char) :
    (words choices).length cs =
      if cs.takeWhile isNameRest ∈ choices then (cs.takeWhile isNameRest).length else 0 := by
  simp only [Pattern.length]
  split
  · rename_i word found
    have member := List.mem_of_find?_eq_some found
    have stands : wordAt word cs = true := by simpa using List.find?_some found
    rw [takeWhile_of_wordAt (words_proper proper member).2 stands, if_pos member]
  · rename_i none
    have absent : cs.takeWhile isNameRest ∉ choices := fun member =>
      List.find?_eq_none.mp none _ member (wordAt_run cs)
    rw [if_neg absent]

/-- A name covers the run of name characters, if it starts like one. -/
theorem length_name (cs : List Char) :
    name.length cs =
      if cs.head?.any isNameStart then (cs.takeWhile isNameRest).length else 0 := by
  cases cs with
  | nil => rfl
  | cons c rest =>
    cases starts : isNameStart c with
    | true => simp [Pattern.length, starts, isNameRest_of_start starts, Nat.add_comm]
    | false => simp [Pattern.length, starts]

end Pattern

namespace Lead

variable {c : Char}

theorem of_blank (blank : isBlank c = true) : of c = .blank := by simp [of, blank]

theorem of_letter (starts : isNameStart c = true) : of c = .letter := by
  have apart : c ≠ '#' := by
    rintro rfl
    contradiction
  simp [of, not_blank (isNameRest_of_start starts), apart, starts]

theorem of_digit (digit : c.isDigit = true) : of c = .digit := by
  have rest : isNameRest c = true := by simp [isNameRest, Char.isAlphanum, digit]
  have apart : c ≠ '#' := by
    rintro rfl
    contradiction
  have start : ¬isNameStart c = true := fun starts => by simp [not_digit starts] at digit
  simp [of, not_blank rest, apart, start, digit]

end Lead

namespace Pattern

variable {p q : Pattern} {c : Char} {cs rest text : List Char}

theorem lead_of_covers (proper : p.proper = true) (covers : p.length (c :: rest) ≠ 0) :
    Lead.of c = p.lead := by
  cases p with
  | blanks =>
    cases blank : isBlank c with
    | true => exact Lead.of_blank blank
    | false => simp [Pattern.length, blank] at covers
  | comment =>
    by_cases hash : c = '#'
    · subst hash
      rfl
    · simp [Pattern.length, hash] at covers
  | symbol text =>
    cases text with
    | nil => contradiction
    | cons d text =>
      by_cases same : d = c
      · subst same
        simpa [Pattern.proper, lead] using proper
      · simp [Pattern.length, same] at covers
  | words choices =>
    rw [length_words proper] at covers
    by_cases member : (c :: rest).takeWhile isNameRest ∈ choices
    · have starts := (words_proper proper member).1
      cases letter : isNameRest c with
      | true => exact Lead.of_letter (by simpa [letter] using starts)
      | false => simp [letter] at starts
    · simp [member] at covers
  | number =>
    cases digit : c.isDigit with
    | true => exact Lead.of_digit digit
    | false => simp [Pattern.length, digit] at covers
  | quotation =>
    by_cases quote : c = '\''
    · subst quote
      rfl
    · simp [Pattern.length, quote] at covers
  | name =>
    cases starts : isNameStart c with
    | true => exact Lead.of_letter starts
    | false => simp [Pattern.length, starts] at covers
  | nothing => contradiction

/-- Both symbols stand at the start of the text, so one of them starts with the other. -/
theorem length_symbol_le {later : List Char} (shorter : text.isPrefixOf later = false)
    (covers : (symbol text).length cs ≠ 0) :
    (symbol later).length cs ≤ (symbol text).length cs := by
  simp only [Pattern.length, ne_eq, ite_eq_right_iff, Classical.not_imp] at covers ⊢
  obtain ⟨starts, -⟩ := covers
  rw [if_pos starts]
  split
  · rename_i starts'
    rw [List.isPrefixOf_iff_prefix] at starts starts'
    have other : ¬text <+: later := by
      rw [← List.isPrefixOf_iff_prefix, shorter]
      exact Bool.false_ne_true
    exact ((List.prefix_or_prefix_of_prefix starts starts').resolve_left other).length_le
  · exact Nat.zero_le _

theorem length_le_of_outranks (proper : p.proper = true) (proper' : q.proper = true)
    (outranks : p.outranks q = true) (covers : p.length cs ≠ 0) : q.length cs ≤ p.length cs := by
  obtain ⟨c, rest, rfl⟩ : ∃ c rest, cs = c :: rest := by
    have bound := length_le p cs
    cases cs with
    | nil => exact absurd (Nat.le_zero.mp bound) covers
    | cons c rest => exact ⟨c, rest, rfl⟩
  by_cases covers' : q.length (c :: rest) = 0
  · omega
  have same : p.lead = q.lead :=
    (lead_of_covers proper covers).symm.trans (lead_of_covers proper' covers')
  unfold Pattern.outranks at outranks
  split at outranks
  · exact length_symbol_le (by simpa using outranks) covers
  · rw [length_words proper] at covers ⊢
    rw [length_words proper']
    split at covers
    · split <;> simp_all
    · contradiction
  · rw [length_words proper] at covers ⊢
    rw [length_name]
    split at covers
    · split <;> simp_all
    · contradiction
  · simp [same] at outranks

end Pattern

namespace TokenKind

theorem pattern_proper (kind : TokenKind) : kind.pattern.proper = true := by
  cases kind with
  | unlisted => rfl
  | _ => decide

theorem all_outranks : all.Pairwise fun a b => a.pattern.outranks b.pattern = true := by decide

/-- The kind is the earliest one with the longest match, and it covers `n` characters. -/
structure EarliestLongest (cs : List Char) (kind : TokenKind) (n : Nat) : Prop where
  positive : 0 < n
  matched : n ∈ kind.pattern.regexp.lengths cs
  most : ∀ other ∈ all, ∀ m ∈ other.pattern.regexp.lengths cs, m ≤ n
  earliest : ∃ before after, all = before ++ kind :: after ∧
    ∀ other ∈ before, n ∉ other.pattern.regexp.lengths cs

/-- The words that are no names, with their kinds. -/
def reserved : List (List Char × TokenKind) :=
  [("true".toList, boolean), ("false".toList, boolean), ("state".toList, stateWord),
    ("assert".toList, assertWord), ("when".toList, whenWord), ("let".toList, letWord),
    ("const".toList, constWord), ("if".toList, ifWord), ("else".toList, elseWord),
    ("and".toList, andWord), ("or".toList, orWord), ("not".toList, notWord)]

variable {cs : List Char} {kind other : TokenKind} {before after : List TokenKind} {n : Nat}

theorem covers (kind : TokenKind) (cs : List Char) :
    kind.pattern.regexp.Covers cs (kind.matchLength cs) :=
  Pattern.covers (pattern_proper kind) cs

/-- What is declared later does not cover more than what covers something. -/
theorem matchLength_le_of_earlier (order : all = before ++ kind :: after) (cs : List Char) :
    (∀ other ∈ before, other.matchLength cs ≠ 0 → kind.matchLength cs ≤ other.matchLength cs) ∧
      ∀ other ∈ after, kind.matchLength cs ≠ 0 → other.matchLength cs ≤ kind.matchLength cs := by
  have yields : all.Pairwise fun a b =>
      a.matchLength cs ≠ 0 → b.matchLength cs ≤ a.matchLength cs :=
    all_outranks.imp fun outranks =>
      Pattern.length_le_of_outranks (pattern_proper _) (pattern_proper _) outranks
  rw [order, List.pairwise_append, List.pairwise_cons] at yields
  obtain ⟨-, ⟨later, -⟩, earlier⟩ := yields
  exact ⟨fun other member => earlier other member kind List.mem_cons_self, later⟩

theorem firstMatch?_eq_some_iff :
    firstMatch? cs = some (kind, n) ↔ ∃ before after, all = before ++ kind :: after ∧
      kind.matchLength cs = n ∧ n ≠ 0 ∧ ∀ other ∈ before, other.matchLength cs = 0 := by
  constructor
  · intro found
    obtain ⟨before, chosen, after, order, covered, others⟩ := List.findSome?_eq_some_iff.mp found
    by_cases positive : chosen.matchLength cs = 0
    · simp [positive] at covered
    · simp only [positive, if_false, Option.some.injEq, Prod.mk.injEq] at covered
      obtain ⟨rfl, rfl⟩ := covered
      refine ⟨before, after, order, rfl, positive, fun other member => ?_⟩
      simpa using others other member
  · rintro ⟨before, after, order, rfl, positive, others⟩
    exact firstMatch?_of_first order others positive

theorem earliestLongest_of_firstMatch? (found : firstMatch? cs = some (kind, n)) :
    EarliestLongest cs kind n := by
  obtain ⟨before, after, order, rfl, positive, others⟩ := firstMatch?_eq_some_iff.mp found
  have bound : ∀ other ∈ all, other.matchLength cs ≤ kind.matchLength cs := by
    intro other member
    rw [order, List.mem_append, List.mem_cons] at member
    obtain earlier | rfl | later := member
    · rw [others other earlier]
      exact Nat.zero_le _
    · exact Nat.le_refl _
    · exact (matchLength_le_of_earlier order cs).2 other later positive
  refine ⟨Nat.pos_of_ne_zero positive, (covers kind cs).mem positive, ?_, before, after, order, ?_⟩
  · intro other member m matched
    exact Nat.le_trans ((covers other cs).le matched) (bound other member)
  · intro other member matched
    have none := (covers other cs).le matched
    rw [others other member] at none
    exact positive (Nat.le_zero.mp none)

theorem EarliestLongest.firstMatch?_eq (chosen : EarliestLongest cs kind n) :
    firstMatch? cs = some (kind, n) := by
  obtain ⟨positive, matched, most, before, after, order, earliest⟩ := chosen
  have listed : kind ∈ all := by simp [order]
  have reached : n ≤ kind.matchLength cs := (covers kind cs).le matched
  have covered : kind.matchLength cs ≠ 0 := by omega
  have same : kind.matchLength cs = n :=
    Nat.le_antisymm (most kind listed _ ((covers kind cs).mem covered)) reached
  refine firstMatch?_eq_some_iff.mpr ⟨before, after, order, same, by omega, ?_⟩
  intro other member
  apply Classical.byContradiction
  intro covered'
  have matched' := (covers other cs).mem covered'
  have least := (matchLength_le_of_earlier order cs).1 other member covered'
  have listed' : other ∈ all := by simp [order, member]
  have equal : other.matchLength cs = n := by
    have bound := most other listed' _ matched'
    omega
  exact earliest other member (equal ▸ matched')

/-- Trying the regular expressions in turn is trying the patterns. -/
theorem firstMatch?_eq_matches (cs : List Char) :
    firstMatch? cs = all.findSome? fun kind =>
      ((kind.pattern.regexp.match? cs).filter (0 < ·)).map (kind, ·) := by
  apply congrArg (List.findSome? · all)
  funext kind
  have covered := (covers kind cs).match?_eq
  cases found : kind.pattern.regexp.match? cs with
  | none => simp_all
  | some n =>
    rw [found, Option.getD_some] at covered
    cases n <;> simp [← covered, Option.filter]

/-- Where a letter or an underscore stands, a kind covers the run of name characters or nothing. -/
theorem matchLength_of_letter (starts : cs.head?.any isNameStart = true)
    (other : kind ≠ identifier) :
    kind.matchLength cs = if cs.takeWhile isNameRest ∈ kind.pattern.spellings
      then (cs.takeWhile isNameRest).length else 0 := by
  obtain ⟨c, rest, rfl⟩ : ∃ c rest, cs = c :: rest := by cases cs <;> simp_all
  have letter : Lead.of c = .letter := Lead.of_letter (by simpa using starts)
  have proper := pattern_proper kind
  cases pattern : kind.pattern with
  | words choices =>
    rw [pattern] at proper
    rw [matchLength, pattern]
    exact Pattern.length_words proper _
  | name => cases kind <;> simp_all [TokenKind.pattern]
  | _ =>
    apply Classical.byContradiction
    intro covered
    have lead := Pattern.lead_of_covers proper covered
    simp [letter, pattern, Pattern.lead] at lead

theorem matchLength_identifier (starts : cs.head?.any isNameStart = true) :
    identifier.matchLength cs = (cs.takeWhile isNameRest).length := by
  simp [matchLength, pattern, Pattern.length_name, starts]

theorem takeWhile_ne_nil (starts : cs.head?.any isNameStart = true) :
    cs.takeWhile isNameRest ≠ [] := by
  cases cs with
  | nil => contradiction
  | cons c rest => simp [isNameRest_of_start (by simpa using starts)]

theorem lookup_spellings (run : List Char) (words : List (List Char)) :
    (words.map (·, kind)).lookup run = if run ∈ words then some kind else none := by
  induction words with
  | nil => rfl
  | cons word words ih =>
    rw [List.map_cons, List.lookup_cons, ih]
    by_cases same : run = word
    · simp [same]
    · simp [same, beq_eq_false_iff_ne.mpr same]

/-- Before the names come only words that are listed, of what reads letters. -/
theorem findSome?_reserved (starts : cs.head?.any isNameStart = true) (kinds : List TokenKind)
    (others : identifier ∉ kinds) :
    (kinds.findSome? fun kind =>
      if kind.matchLength cs = 0 then none else some (kind, kind.matchLength cs)) =
    ((kinds.flatMap fun kind => kind.pattern.spellings.map (·, kind)).lookup
      (cs.takeWhile isNameRest)).map (·, (cs.takeWhile isNameRest).length) := by
  induction kinds with
  | nil => rfl
  | cons kind kinds ih =>
    rw [List.mem_cons, not_or] at others
    obtain ⟨other, others⟩ := others
    rw [List.findSome?_cons, ih others, List.flatMap_cons, List.lookup_append, lookup_spellings,
      matchLength_of_letter starts (Ne.symm other)]
    by_cases listed : cs.takeWhile isNameRest ∈ kind.pattern.spellings
    · simp [listed, takeWhile_ne_nil starts]
    · simp [listed]

theorem reserved_eq :
    reserved = all.dropLast.flatMap fun kind => kind.pattern.spellings.map (·, kind) := rfl

/-- The whole run is read, as the word that it is or as a name. -/
theorem firstMatch?_of_letter (starts : cs.head?.any isNameStart = true) :
    firstMatch? cs = some ((reserved.lookup (cs.takeWhile isNameRest)).getD .identifier,
      (cs.takeWhile isNameRest).length) := by
  have order : all = all.dropLast ++ [identifier] := rfl
  have words := findSome?_reserved starts all.dropLast (by decide)
  rw [← reserved_eq] at words
  rw [firstMatch?, order, List.findSome?_append]
  simp only [words]
  cases reserved.lookup (cs.takeWhile isNameRest) with
  | none => simp [matchLength_identifier starts, takeWhile_ne_nil starts]
  | some kind => rfl

theorem firstMatch?_eq_none_iff : firstMatch? cs = none ↔
    ∀ kind ∈ all, ∀ n ∈ kind.pattern.regexp.lengths cs, n = 0 := by
  have uncovered : firstMatch? cs = none ↔ ∀ kind ∈ all, kind.matchLength cs = 0 := by
    simp [firstMatch?, List.findSome?_eq_none_iff]
  rw [uncovered]
  apply forall₂_congr
  intro kind _
  constructor
  · intro none n matched
    have bound := (covers kind cs).le matched
    omega
  · intro empty
    exact Classical.byContradiction fun positive =>
      positive (empty _ ((covers kind cs).mem positive))

/-- Trying the regular expressions in the order of declaration finds the earliest kind with the
longest match, where there is one. At a letter or an underscore that is the whole run of name
characters, which is a name unless it is reserved. -/
theorem firstMatch?_longest (cs : List Char) :
    (firstMatch? cs = all.findSome? fun kind =>
      ((kind.pattern.regexp.match? cs).filter (0 < ·)).map (kind, ·)) ∧
    (∀ kind n, firstMatch? cs = some (kind, n) ↔ EarliestLongest cs kind n) ∧
    (firstMatch? cs = none ↔ ∀ kind ∈ all, ∀ n ∈ kind.pattern.regexp.lengths cs, n = 0) ∧
    (cs.head?.any isNameStart = true →
      firstMatch? cs = some ((reserved.lookup (cs.takeWhile isNameRest)).getD .identifier,
        (cs.takeWhile isNameRest).length)) := by
  refine ⟨firstMatch?_eq_matches cs, ?_, firstMatch?_eq_none_iff, firstMatch?_of_letter⟩
  intro kind n
  constructor
  · exact earliestLongest_of_firstMatch?
  · exact EarliestLongest.firstMatch?_eq

theorem firstMatch?_longest_stateful :
    firstMatch? "stateful <= 1".toList = some (.identifier, 8) ∧
      firstMatch? "state <= 1".toList = some (.stateWord, 5) ∧
      EarliestLongest "<= 1".toList .lessEqual 2 := by
  exact ⟨(firstMatch?_longest "stateful <= 1".toList).2.2.2 (by decide),
    (firstMatch?_longest "state <= 1".toList).2.2.2 (by decide),
    ((firstMatch?_longest "<= 1".toList).2.1 .lessEqual 2).mp (by decide)⟩

end TokenKind
end Statecraft
