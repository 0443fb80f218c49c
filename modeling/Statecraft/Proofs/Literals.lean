import Statecraft.Proofs.Rounding
import Statecraft.Proofs.Scanning
import Statecraft.Proofs.Tiling

/-! What the literals of a source stand for. A number literal writes a number in base ten and
denotes the nearest double, unless it is too large for one; a string literal has its content
between two quotes. Scanning makes no other literals. -/
namespace Statecraft

/-- The number written by digits, or by digits on both sides of a point. -/
inductive Written : List Char → ℚ → Prop where
  | whole {digits : List Char} (filled : digits ≠ []) (only : digits.all Char.isDigit = true) :
      Written digits (Nat.ofDigitChars 10 digits 0)
  | decimal {digits places : List Char} (filled : digits ≠ [])
      (only : digits.all Char.isDigit = true) (filled' : places ≠ [])
      (only' : places.all Char.isDigit = true) :
      Written (digits ++ '.' :: places)
        (Nat.ofDigitChars 10 digits 0 + Nat.ofDigitChars 10 places 0 / 10 ^ places.length)

/-- The text of a literal stands for the nearest double to the number that it writes. -/
def Denotes (text : String) (x : Float) : Prop := ∃ q, Written text.toList q ∧ Double.Nearest q x

/-- The text writes a number that is too large for a double. -/
def Oversized (text : String) : Prop := ∃ q, Written text.toList q ∧ Double.limit ≤ q

theorem Numeral.written {cs : List Char} (numeral : Numeral cs) : ∃ q, Written cs q := by
  cases numeral with
  | whole filled only => exact ⟨_, .whole filled only⟩
  | decimal filled only filled' only' => exact ⟨_, .decimal filled only filled' only'⟩

namespace Double

/-- Ten is more than the third power of two. -/
theorem mul_two_pow_le {n k places : Nat} (few : n = 0 ∨ n.log2 + places < 3 * k) :
    n * 2 ^ places ≤ 10 ^ k := by
  rcases few with rfl | few
  · simp
  · calc n * 2 ^ places ≤ 2 ^ (n.log2 + 1) * 2 ^ places :=
        Nat.mul_le_mul_right _ Nat.lt_log2_self.le
      _ = 2 ^ (n.log2 + 1 + places) := (pow_add 2 _ _).symm
      _ ≤ 2 ^ (3 * k) := Nat.pow_le_pow_right two_pos (by omega)
      _ = 8 ^ k := pow_mul 2 3 k
      _ ≤ 10 ^ k := Nat.pow_le_pow_left (by decide) k

/-- A quotient by a power of ten with so few digits is far below the smallest double. -/
theorem nearest_tiny {n k places : Nat} (few : n = 0 ∨ n.log2 + places < 3 * k)
    (far : 1075 ≤ places) :
    (n : ℚ) / 10 ^ k < limit ∧ Nearest ((n : ℚ) / 10 ^ k) (ofParts 0 leastExponent) := by
  have small : (n : ℚ) / 10 ^ k ≤ 2 ^ (-(places : Int)) := by
    rw [zpow_neg, zpow_natCast, ← one_div, div_le_div_iff₀ (by positivity) (by positivity), one_mul]
    exact_mod_cast mul_two_pow_le few
  have units : (n : ℚ) / 10 ^ k / 2 ^ leastExponent ≤ 1 / 2 :=
    calc (n : ℚ) / 10 ^ k / 2 ^ leastExponent
        ≤ 2 ^ (-(places : Int)) / 2 ^ leastExponent := by gcongr
      _ = 2 ^ (-(places : Int) - leastExponent) := (zpow_sub₀ two_ne_zero _ _).symm
      _ ≤ 2 ^ (-1 : Int) := zpow_le_zpow_right₀ one_le_two (by simp only [leastExponent]; omega)
      _ = 1 / 2 := by norm_num
  have bounded : (n : ℚ) / 10 ^ k < limit :=
    calc (n : ℚ) / 10 ^ k ≤ 2 ^ (-(places : Int)) := small
      _ ≤ 2 ^ greatestExponent :=
        zpow_le_zpow_right₀ one_le_two (by simp only [greatestExponent]; omega)
      _ < (2 * hidden - 1 / 2) * 2 ^ greatestExponent :=
        lt_mul_of_one_lt_left (by positivity) (by norm_num [hidden_eq])
      _ = limit := limit_eq.symm
  refine ⟨bounded, nearest_ofUnits (r := 0) bounded (le_refl _) (by decide) (by decide)
    (by decide) (.inr rfl) ?_ fun _ => .zero⟩
  rw [Nat.cast_zero, sub_zero, abs_of_nonneg (by positivity)]
  exact units

theorem splitPoint_whole {digits : List Char} (only : digits.all Char.isDigit = true) :
    splitPoint Char.isDigit digits = (digits, [], []) := by
  have kept := List.takeWhile_eq_self_iff.mpr (List.all_eq_true.mp only)
  have gone := List.dropWhile_eq_nil_iff.mpr (List.all_eq_true.mp only)
  simp only [splitPoint, kept, gone]

theorem splitPoint_decimal {digits places : List Char} (only : digits.all Char.isDigit = true)
    (only' : places.all Char.isDigit = true) :
    splitPoint Char.isDigit (digits ++ '.' :: places) = (digits, places, []) := by
  have kept : (digits ++ '.' :: places).takeWhile Char.isDigit = digits :=
    TokenKind.takeWhile_exact only rfl
  have gone : (digits ++ '.' :: places).dropWhile Char.isDigit = '.' :: places := by
    rw [List.dropWhile_append_of_pos (List.all_eq_true.mp only)]
    rfl
  have kept' := List.takeWhile_eq_self_iff.mpr (List.all_eq_true.mp only')
  have gone' := List.dropWhile_eq_nil_iff.mpr (List.all_eq_true.mp only')
  simp only [splitPoint, kept, gone, kept', gone']

theorem literal?_written {cs : List Char} {q : ℚ} (written : Written cs q) :
    ∃ n k : Nat, literal? cs = some ⟨n, 10, -(k : Int)⟩ ∧ q = n / 10 ^ k := by
  have digits_eq (cs : List Char) : natOfDigits cs = Nat.ofDigitChars 10 cs 0 := rfl
  cases written with
  | whole filled only =>
    refine ⟨Nat.ofDigitChars 10 cs 0, 0, ?_, by simp⟩
    simp [literal?, splitPoint_whole only, exponentPart?, digits_eq, filled]
  | @decimal digits places filled only filled' only' =>
    refine ⟨Nat.ofDigitChars 10 (digits ++ places) 0, places.length, ?_, ?_⟩
    · simp [literal?, splitPoint_decimal only only', exponentPart?, digits_eq, filled]
    · have joined : Nat.ofDigitChars 10 places (Nat.ofDigitChars 10 digits 0) =
          10 ^ places.length * Nat.ofDigitChars 10 digits 0 + Nat.ofDigitChars 10 places 0 :=
        Nat.ofDigitChars_eq_ofDigitChars_zero
      rw [Nat.ofDigitChars_append, joined]
      push_cast
      field_simp

/-- Of the cases that need no quotient only the tiny one comes up without a power of ten. -/
theorem Literal.nearest?_spec (n k : Nat) :
    (∀ x, Literal.nearest? ⟨n, 10, -(k : Int)⟩ = some x → Nearest ((n : ℚ) / 10 ^ k) x) ∧
      (Literal.nearest? ⟨n, 10, -(k : Int)⟩ = none ↔ limit ≤ (n : ℚ) / 10 ^ k) := by
  have places : (Nat.log2 10 : Int) = 3 := by decide
  simp only [Literal.nearest?, places]
  split_ifs with tiny large
  · have few : n = 0 ∨ n.log2 + 1101 < 3 * k := tiny.imp_right (by omega)
    obtain ⟨bounded, nearest⟩ := nearest_tiny few (by decide)
    refine ⟨?_, by simpa using bounded⟩
    rintro _ ⟨⟩
    exact nearest
  · omega
  · have whole : (-(k : Int)).toNat = 0 := by omega
    have power : (- -(k : Int)).toNat = k := by omega
    have positive : 0 < Nat.pow 10 k := Nat.pow_pos (by decide)
    have spec := Double.nearest?_spec (n * Nat.pow 10 0) positive
    rw [whole, power]
    simpa using spec

/-- A numeral is read as the double that it denotes, unless it is too large. -/
theorem ofLiteral?_written {text : String} {q : ℚ} (written : Written text.toList q) :
    (∀ x, ofLiteral? text = some x → Nearest q x) ∧ (ofLiteral? text = none ↔ limit ≤ q) := by
  obtain ⟨n, k, read, rfl⟩ := literal?_written written
  rw [ofLiteral?, read]
  exact Literal.nearest?_spec n k

end Double

section Reading

variable {text : String} {x : Float}

theorem Denotes.read (denotes : Denotes text x) : Double.ofLiteral? text = some x := by
  obtain ⟨q, written, nearest⟩ := denotes
  obtain ⟨reads, large⟩ := Double.ofLiteral?_written written
  cases read : Double.ofLiteral? text with
  | none => exact absurd (large.mp read) (not_le.mpr nearest.bounded)
  | some y => exact congrArg some ((reads y read).unique nearest)

theorem Oversized.unread (large : Oversized text) : Double.ofLiteral? text = none := by
  obtain ⟨q, written, large⟩ := large
  exact (Double.ofLiteral?_written written).2.mpr large

theorem Numeral.denotes (numeral : Numeral text.toList) (read : Double.ofLiteral? text = some x) :
    Denotes text x := by
  obtain ⟨q, written⟩ := numeral.written
  exact ⟨q, written, (Double.ofLiteral?_written written).1 x read⟩

theorem Numeral.oversized (numeral : Numeral text.toList) (unread : Double.ofLiteral? text = none) :
    Oversized text := by
  obtain ⟨q, written⟩ := numeral.written
  exact ⟨q, written, (Double.ofLiteral?_written written).2.mp unread⟩

end Reading

/-- A double is near, if the token is a number. -/
def Token.Fits (t : Token) : Prop := t.kind = .number → ∃ x, Denotes t.text x

theorem Token.fits_of_ne {t : Token} (other : t.kind ≠ .number) : t.Fits :=
  fun kind => absurd kind other

namespace Pattern

variable {cs : List Char}

theorem take_takeWhile_length (p : Char → Bool) (cs : List Char) :
    cs.take (cs.takeWhile p).length = cs.takeWhile p :=
  (List.prefix_iff_eq_take.mp (List.takeWhile_prefix p)).symm

theorem all_takeWhile (p : Char → Bool) (cs : List Char) : (cs.takeWhile p).all p = true :=
  List.all_eq_true.mpr fun _ member => List.mem_takeWhile_imp member

/-- What the pattern of numbers covers is a numeral. -/
theorem numeral_of_number (covers : number.length cs ≠ 0) :
    Numeral (cs.take (number.length cs)) := by
  have whole := take_takeWhile_length Char.isDigit cs
  simp only [Pattern.length] at covers ⊢
  split_ifs at covers ⊢ with none
  · contradiction
  have filled : cs.takeWhile Char.isDigit ≠ [] := by simpa using none
  have only := all_takeWhile Char.isDigit cs
  split
  · rename_i rest point
    split_ifs with none'
    · rw [whole]
      exact .whole filled only
    · have filled' : rest.takeWhile Char.isDigit ≠ [] := by simpa using none'
      rw [Nat.add_assoc, List.take_add, whole, point, Nat.add_comm, List.take_succ_cons,
        take_takeWhile_length]
      exact .decimal filled only filled' (all_takeWhile _ _)
  · rw [whole]
    exact .whole filled only

/-- What the pattern of strings covers is a text between two quotes. -/
theorem quoted_of_quotation (covers : quotation.length cs ≠ 0) :
    ∃ content, cs.take (quotation.length cs) = '\'' :: (content ++ ['\'']) := by
  simp only [Pattern.length] at covers ⊢
  split at covers
  · rename_i rest
    have parts := List.takeWhile_append_dropWhile (p := (· ≠ '\'')) (l := rest)
    have stops := List.head?_dropWhile_not (· ≠ '\'') rest
    generalize rest.takeWhile (· ≠ '\'') = content at covers parts ⊢
    generalize rest.dropWhile (· ≠ '\'') = after at parts stops
    subst parts
    rw [List.drop_left] at covers ⊢
    cases after with
    | nil => contradiction
    | cons c after =>
      obtain rfl : c = '\'' := by simpa using stops
      exact ⟨content, by simp [List.take_append]⟩
  · contradiction

end Pattern

/-- The text of the token is one that its kind has, as far as it is a literal. -/
structure Token.Spelt (t : Token) : Prop where
  number : t.kind = .number → Numeral t.text.toList
  string : t.kind = .string → ∃ content : String, t.text = "'" ++ content ++ "'"

/-- Scanning makes no other literals. -/
theorem significantTokens_spelt (source : String) : ∀ t ∈ significantTokens source, t.Spelt := by
  intro t member
  obtain ⟨before, later, -, placed⟩ := significantTokens_placed member
  have chosen : TokenKind.firstMatch? (t.text.toList ++ later) = some (t.kind, _) := placed.chosen
  obtain ⟨covers, filled⟩ := TokenKind.firstMatch?_covers chosen
  have taken : (t.text.toList ++ later).take (t.kind.matchLength (t.text.toList ++ later)) =
      t.text.toList := by
    rw [covers, List.take_left]
  rw [← covers] at filled
  constructor
  · intro kind
    rw [kind] at taken filled
    exact taken ▸ Pattern.numeral_of_number filled
  · intro kind
    rw [kind] at taken filled
    obtain ⟨content, quoted⟩ := Pattern.quoted_of_quotation filled
    refine ⟨String.ofList content, String.toList_inj.mp ?_⟩
    rw [← taken, TokenKind.matchLength, TokenKind.pattern, quoted]
    simp

end Statecraft
