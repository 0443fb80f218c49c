import Statecraft.Token.Scan

/-! Scanning a text piece by piece. A piece before a delimiter gives the tokens it gives at the end
of a text: a blank or a closing parenthesis makes no word, name or number longer. -/
namespace Statecraft

/-- Nothing, a blank or a closing parenthesis comes next. -/
def Delimits (rest : List Char) : Prop := ∀ c ∈ rest.head?, c = ' ' ∨ c = ')'

/-- Digits, or digits on both sides of a point. -/
inductive Numeral : List Char → Prop where
  | whole {digits : List Char} (filled : digits ≠ []) (only : digits.all Char.isDigit = true) :
      Numeral digits
  | decimal {digits places : List Char} (filled : digits ≠ [])
      (only : digits.all Char.isDigit = true) (filled' : places ≠ [])
      (only' : places.all Char.isDigit = true) : Numeral (digits ++ '.' :: places)

theorem delimits_nil : Delimits [] := by simp [Delimits]

theorem delimits_blank (rest : List Char) : Delimits (' ' :: rest) := by simp [Delimits]

theorem delimits_paren (rest : List Char) : Delimits (')' :: rest) := by simp [Delimits]

section Pieces

variable {c : Char} {cs rest : List Char} {kind : TokenKind}

theorem Delimits.apart (delimits : Delimits rest) {p : Char → Bool} (blank : p ' ' = false)
    (paren : p ')' = false) : rest.head?.any p = false := by
  cases rest with
  | nil => rfl
  | cons d more =>
    obtain rfl | rfl := delimits d rfl
    · exact blank
    · exact paren

theorem Delimits.takeWhile_append (delimits : Delimits rest) {p : Char → Bool}
    (blank : p ' ' = false) (paren : p ')' = false) (cs : List Char) :
    (cs ++ rest).takeWhile p = cs.takeWhile p := by
  induction cs with
  | nil =>
    have apart := delimits.apart blank paren
    cases rest <;> simp_all
  | cons d cs ih => simp [List.takeWhile_cons, ih]

theorem Delimits.wordAt_append (delimits : Delimits rest) {word : List Char}
    (letters : word.all isNameRest = true) (cs : List Char) :
    Pattern.wordAt word (cs ++ rest) = Pattern.wordAt word cs := by
  induction word generalizing cs with
  | nil =>
    have apart : rest.head?.any isNameRest = false := delimits.apart (by decide) (by decide)
    cases cs <;> simp [Pattern.wordAt, apart]
  | cons d word ih =>
    simp only [List.all_cons, Bool.and_eq_true] at letters
    cases cs with
    | nil =>
      cases rest with
      | nil => rfl
      | cons e more =>
        have other : d ≠ e := by
          rintro rfl
          obtain rfl | rfl := delimits d rfl <;> exact absurd letters.1 (by decide)
        simp [Pattern.wordAt, other]
    | cons e cs =>
      have same := ih letters.2 cs
      simp only [Pattern.wordAt, List.cons_append, List.isPrefixOf_cons_cons, List.length_cons,
        List.drop_succ_cons, Bool.and_assoc] at same ⊢
      rw [same]

theorem isNameRest_of_start (starts : isNameStart c = true) : isNameRest c = true := by
  simp only [isNameStart, isNameRest, Char.isAlphanum, Bool.or_eq_true] at starts ⊢
  exact starts.imp_left Or.inl

theorem not_digit (starts : isNameStart c = true) : c.isDigit = false := by
  simp only [isNameStart, Bool.or_eq_true, decide_eq_true_eq] at starts
  obtain alpha | rfl := starts
  · delta Char.isAlpha Char.isUpper Char.isLower at alpha
    simp only [Char.isDigit]
    grind
  · decide

theorem not_blank (letter : isNameRest c = true) : isBlank c = false := by
  rw [← Bool.not_eq_true]
  intro blank
  simp only [isBlank, Bool.or_eq_true, decide_eq_true_eq] at blank
  obtain (((rfl | rfl) | rfl) | rfl) | rfl := blank <;> contradiction

theorem Numeral.starts (numeral : Numeral cs) : ∃ c more, cs = c :: more ∧ c.isDigit = true := by
  cases numeral with
  | whole filled only | decimal filled only =>
    obtain ⟨c, more, rfl⟩ := List.exists_cons_of_ne_nil filled
    rw [List.all_cons, Bool.and_eq_true] at only
    exact ⟨c, _, rfl, only.1⟩

namespace TokenKind

/-- No symbol starts with a letter, a digit or an underscore. -/
theorem symbol_starts {text : List Char} (symbolic : kind.pattern = .symbol text) :
    ∃ s more, text = s :: more ∧ isNameRest s = false := by
  cases kind <;> simp only [pattern, reduceCtorEq, Pattern.symbol.injEq] at symbolic
  all_goals
    subst symbolic
    exact ⟨_, _, rfl, by decide⟩

theorem words_letters {choices : List (List Char)} (wordy : kind.pattern = .words choices) :
    ∀ word ∈ choices, word.all isNameRest = true := by
  cases kind <;> simp only [pattern, reduceCtorEq, Pattern.words.injEq] at wordy
  all_goals
    subst wordy
    decide

theorem matchLength_symbol {text : List Char} (symbolic : kind.pattern = .symbol text)
    (letter : isNameRest c = true) (cs : List Char) : kind.matchLength (c :: cs) = 0 := by
  obtain ⟨s, more, rfl, other⟩ := symbol_starts symbolic
  have apart : s ≠ c := by
    rintro rfl
    simp [letter] at other
  simp [matchLength, symbolic, Pattern.length, apart]

/-- A delimiter changes nothing about what starts with a letter. -/
theorem matchLength_append (delimits : Delimits rest) (starts : isNameStart c = true)
    (cs : List Char) (kind : TokenKind) :
    kind.matchLength (c :: (cs ++ rest)) = kind.matchLength (c :: cs) := by
  have letter := isNameRest_of_start starts
  cases pattern : kind.pattern with
  | blanks => simp [matchLength, pattern, Pattern.length, not_blank letter]
  | comment =>
    have apart : c ≠ '#' := by
      rintro rfl
      contradiction
    simp [matchLength, pattern, Pattern.length, apart]
  | symbol text => rw [matchLength_symbol pattern letter, matchLength_symbol pattern letter]
  | words choices =>
    -- A keyword that ends with the text still has no letter after it.
    have same : choices.find? (Pattern.wordAt · (c :: cs ++ rest)) =
        choices.find? (Pattern.wordAt · (c :: cs)) := by
      have letters := words_letters pattern
      clear pattern
      induction choices with
      | nil => rfl
      | cons word choices ih =>
        rw [List.forall_mem_cons] at letters
        simp only [List.find?_cons, delimits.wordAt_append letters.1, ih letters.2]
    simp only [matchLength, pattern, Pattern.length, ← List.cons_append, same]
  | number => simp [matchLength, pattern, Pattern.length, not_digit starts]
  | quotation =>
    have apart : c ≠ '\'' := by
      rintro rfl
      contradiction
    simp [matchLength, pattern, Pattern.length, apart]
  | name =>
    have same := delimits.takeWhile_append (p := isNameRest) (by decide) (by decide) cs
    simp only [matchLength, pattern, Pattern.length, same]
  | nothing => simp only [matchLength, pattern, Pattern.length]

theorem firstMatch?_append (delimits : Delimits rest) (starts : isNameStart c = true)
    (cs : List Char) : firstMatch? (c :: (cs ++ rest)) = firstMatch? (c :: cs) := by
  simp only [firstMatch?, matchLength_append delimits starts]

/-- The first kind that covers something wins. -/
theorem firstMatch?_of_first {before after : List TokenKind} (order : all = before ++ kind :: after)
    (others : ∀ other ∈ before, other.matchLength cs = 0) (covers : kind.matchLength cs ≠ 0) :
    firstMatch? cs = some (kind, kind.matchLength cs) := by
  have skipped : before.findSome? (fun kind =>
      if kind.matchLength cs = 0 then none else some (kind, kind.matchLength cs)) = none := by
    rw [List.findSome?_eq_none_iff]
    intro other member
    simp [others other member]
  simp only [firstMatch?, order, List.findSome?_append, skipped, List.findSome?_cons, covers,
    if_false, Option.none_or]

theorem takeWhile_exact {p : Char → Bool} (inside : cs.all p = true)
    (boundary : rest.head?.any p = false) : (cs ++ rest).takeWhile p = cs := by
  rw [List.takeWhile_append_of_pos (List.all_eq_true.mp inside)]
  cases rest <;> simp_all

theorem matchLength_numeral (numeral : Numeral cs) (delimits : Delimits rest) :
    number.matchLength (cs ++ rest) = cs.length := by
  have ends : rest.head?.any Char.isDigit = false := delimits.apart (by decide) (by decide)
  cases numeral with
  | whole filled only =>
    simp only [matchLength, pattern, Pattern.length, takeWhile_exact only ends, List.drop_left,
      List.length_eq_zero_iff, filled, if_false]
    split
    · rename_i more
      obtain same | same := delimits '.' rfl <;> contradiction
    · rfl
  | @decimal digits places filled only filled' only' =>
    have stops : (digits ++ '.' :: (places ++ rest)).takeWhile Char.isDigit = digits :=
      takeWhile_exact only rfl
    rw [List.append_assoc, List.cons_append]
    simp [matchLength, pattern, Pattern.length, stops, takeWhile_exact only' ends, filled,
      filled']
    omega

/-- Only blanks, comments and symbols come before numbers. -/
theorem firstMatch?_numeral (numeral : Numeral cs) (delimits : Delimits rest) :
    firstMatch? (cs ++ rest) = some (.number, cs.length) := by
  have covers := matchLength_numeral numeral delimits
  obtain ⟨c, more, rfl, digit⟩ := numeral.starts
  have letter : isNameRest c = true := by simp [isNameRest, Char.isAlphanum, digit]
  have apart : c ≠ '#' := by
    rintro rfl
    contradiction
  have order : all = all.take 12 ++ number :: all.drop 13 := rfl
  have listed : ∀ other ∈ all.take 12, other.pattern = .blanks ∨ other.pattern = .comment ∨
      ∃ text, other.pattern = .symbol text := by
    simp [all, pattern]
  rw [← covers]
  refine firstMatch?_of_first order ?_ (by rw [covers]; simp)
  intro other member
  obtain pattern | pattern | ⟨text, pattern⟩ := listed other member
  · simp [matchLength, pattern, Pattern.length, not_blank letter]
  · simp [matchLength, pattern, Pattern.length, apart]
  · exact matchLength_symbol pattern letter _

theorem firstMatch?_quotation {text : List Char} (quoteless : '\'' ∉ text) (rest : List Char) :
    firstMatch? ('\'' :: (text ++ '\'' :: rest)) = some (.string, text.length + 2) := by
  have order : all = all.take 14 ++ string :: all.drop 15 := rfl
  have inside : (text ++ '\'' :: rest).takeWhile (· ≠ '\'') = text := by
    refine takeWhile_exact ?_ rfl
    simpa using fun c member => ne_of_mem_of_not_mem member quoteless
  have covers : string.matchLength ('\'' :: (text ++ '\'' :: rest)) = text.length + 2 := by
    simp only [matchLength, pattern, Pattern.length, inside, List.drop_left]
    rfl
  rw [← covers]
  refine firstMatch?_of_first order ?_ (by simp [covers])
  repeat refine List.forall_mem_cons.mpr ⟨rfl, ?_⟩
  simp

end TokenKind

end Pieces

namespace Lexeme

/-- Before the rest the front is scanned to these tokens, and no character of it is stray. -/
def Spells (l : Location) (front : List Char) (tokens : List Token) (rest : List Char) : Prop :=
  ∃ lexemes, scanFrom l (front ++ rest) = lexemes ++ scanFrom (l.after front) rest ∧
    (∀ x ∈ lexemes, x.stray? = none) ∧ lexemes.filterMap significant? = tokens

variable {l : Location} {front back rest : List Char} {tokens more : List Token}

theorem Spells.append (first : Spells l front tokens (back ++ rest))
    (last : Spells (l.after front) back more rest) :
    Spells l (front ++ back) (tokens ++ more) rest := by
  obtain ⟨lexemes, scanned, clean, rfl⟩ := first
  obtain ⟨lexemes', scanned', clean', rfl⟩ := last
  refine ⟨lexemes ++ lexemes', ?_, ?_, by simp⟩
  · rw [List.append_assoc, scanned, scanned', Location.after_append, List.append_assoc]
  · intro x member
    exact (List.mem_append.mp member).elim (clean x) (clean' x)

def tokenAt (kind : TokenKind) (l : Location) (cs : List Char) : Token :=
  ⟨kind, String.ofList cs, ⟨l, l.after cs.dropLast⟩⟩

theorem scanFrom_chosen {kind : TokenKind} (filled : front ≠ [])
    (found : TokenKind.firstMatch? (front ++ rest) = some (kind, front.length)) :
    scanFrom l (front ++ rest) =
      .token (tokenAt kind l front) :: scanFrom (l.after front) rest := by
  obtain ⟨c, cs, rfl⟩ := List.exists_cons_of_ne_nil filled
  rw [List.cons_append] at found ⊢
  rw [scanFrom, found]
  simp [tokenAt, ofChars]

theorem spells_token {kind : TokenKind} (visible : kind.ignored = false) (filled : front ≠ [])
    (found : TokenKind.firstMatch? (front ++ rest) = some (kind, front.length)) :
    Spells l front [tokenAt kind l front] rest := by
  refine ⟨[.token (tokenAt kind l front)], scanFrom_chosen filled found, by simp [stray?], ?_⟩
  simp [significant?, tokenAt, visible]

theorem spells_blank (next : rest.head?.any isBlank = false) : Spells l [' '] [] rest := by
  have blanks : rest.takeWhile isBlank = [] := by
    cases rest <;> simp_all
  have found : TokenKind.firstMatch? ([' '] ++ rest) = some (.whitespace, 1) := by
    simp only [TokenKind.firstMatch?, TokenKind.all, List.findSome?_cons, TokenKind.matchLength,
      TokenKind.pattern, Pattern.length]
    simp [isBlank, blanks]
  refine ⟨[.token (tokenAt .whitespace l [' '])], scanFrom_chosen (by simp) found, ?_, ?_⟩
  · simp [stray?]
  · simp [significant?, tokenAt, TokenKind.ignored]

end Lexeme

end Statecraft
