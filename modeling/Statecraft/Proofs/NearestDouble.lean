import Mathlib
import Statecraft.Double.Read

/-! The double nearest to a number. The finite doubles are the significands of at most 53 bits with a
power of two in range; seen from a binade they are whole multiples of its unit or lie below it. Of
two equally near doubles the one with the even significand counts, so there is only one. -/
namespace Statecraft.Double

/-- The number a finite double stands for. -/
def Exact.value? : Exact → Option ℚ
  | .finite negative m e => some ((if negative then -1 else 1) * m * 2 ^ e)
  | .notANumber | .infinite _ => none

/-- Halfway from the greatest double to the power of two after it. -/
def limit : ℚ := 2 ^ 1024 - 2 ^ 970

/-- No double is nearer to the number, which is not negative, and if another one is as near the
significand is even. -/
structure Nearest (q : ℚ) (x : Float) : Prop where
  bounded : q < limit
  closest : ∃ m e, exact x = .finite false m e ∧ ∀ y w, (exact y).value? = some w →
    |q - m * 2 ^ e| ≤ |q - w| ∧ (|q - m * 2 ^ e| = |q - w| → w = m * 2 ^ e ∨ Even m)

/-- A significand and a power of two as the finite doubles have them. -/
structure Canonical (m : Nat) (e : Int) : Prop where
  narrow : m < 2 * hidden
  least : leastExponent ≤ e
  greatest : e ≤ greatestExponent
  normal : hidden ≤ m ∨ e = leastExponent

theorem value_of_exact {x : Float} {m : Nat} {e : Int} (parts : exact x = .finite false m e) :
    (exact x).value? = some ((m : ℚ) * 2 ^ e) := by
  simp [parts, Exact.value?]

section Bits

theorem toBits_ofBits {b : UInt64} (finite : b.toNat / hidden % 2048 ≠ 2047) :
    (Float.ofBits b).toBits = b := by
  refine UInt64.toBitVec_inj.mp ?_
  show Float.Model.UnpackedFloat.pack Float.Model.Format.binary64
    (Float.Model.UnpackedFloat.unpack Float.Model.Format.binary64 b.toBitVec) = b.toBitVec
  rw [Float.Model.UnpackedFloat.pack_unpack, if_neg]
  simp only [Float.Model.UnpackedFloat.isNaNBits, decide_eq_true_eq, not_and]
  intro exponent
  have field := congrArg BitVec.toNat exponent
  simp only [Float.Model.UnpackedFloat.unpackExponent, BitVec.toNat_cast, BitVec.extractLsb_toNat,
    Nat.shiftRight_eq_div_pow] at field
  exact absurd field finite

theorem hidden_eq : hidden = 4503599627370496 := rfl

def bitsOf (m : Nat) (e : Int) : Nat :=
  if m < hidden then m else (e + 1075).toNat * hidden + (m - hidden)

theorem exact_ofParts {m : Nat} {e : Int} (canonical : Canonical m e) :
    exact (ofParts m e) = .finite false m e := by
  obtain ⟨narrow, least, greatest, normal⟩ := canonical
  have fields : ∃ biased fraction, bitsOf m e = biased * hidden + fraction ∧ fraction < hidden ∧
      biased < 2047 ∧ (if biased = 0 then m = fraction ∧ e = leastExponent
        else m = hidden + fraction ∧ e = (biased : Int) - 1075) := by
    simp only [hidden_eq, leastExponent, greatestExponent, bitsOf] at *
    by_cases subnormal : m < 4503599627370496
    · exact ⟨0, m, by simp [subnormal], subnormal, by decide, by simp; omega⟩
    · refine ⟨(e + 1075).toNat, m - 4503599627370496, by simp [subnormal], by omega, by omega, ?_⟩
      rw [if_neg (by omega)]
      omega
  obtain ⟨biased, fraction, bits, low, finite, parts⟩ := fields
  have word : (UInt64.ofNat (bitsOf m e)).toNat = bitsOf m e := by
    rw [UInt64.toNat_ofNat_of_lt' (by rw [bits]; simp only [hidden_eq, UInt64.size] at *; omega)]
  have exponent : bitsOf m e / hidden = biased := by
    rw [bits, mul_comm, Nat.mul_add_div (by decide), Nat.div_eq_of_lt low, add_zero]
  have rest : bitsOf m e % hidden = fraction := by
    rw [bits, mul_comm, Nat.mul_add_mod, Nat.mod_eq_of_lt low]
  have written : (ofParts m e).toBits.toNat = bitsOf m e := by
    show (Float.ofBits (UInt64.ofNat (bitsOf m e))).toBits.toNat = _
    rw [toBits_ofBits, word]
    rw [word, exponent]
    omega
  have unsigned : ¬bitsOf m e / Nat.pow 2 63 = 1 := by
    rw [bits]
    simp only [hidden_eq] at *
    norm_num
    omega
  simp only [exact, written, exponent, rest, unsigned, decide_false, Nat.mod_eq_of_lt
    (Nat.lt_trans finite (by decide : 2047 < 2048)), Nat.ne_of_lt finite, if_false]
  split_ifs at parts ⊢ with zero
  · rw [parts.1, parts.2]
  · rw [parts.1, parts.2]

/-- A finite double has a significand and a power of two in range, and if it is not negative they
are all there is to it. -/
theorem canonical_of_exact {x : Float} {negative : Bool} {m : Nat} {e : Int}
    (parts : exact x = .finite negative m e) :
    Canonical m e ∧ (negative = false → x = ofParts m e) := by
  have low : x.toBits.toNat % hidden < hidden := Nat.mod_lt _ (by decide)
  have high : x.toBits.toNat / hidden % 2048 < 2048 := Nat.mod_lt _ (by decide)
  -- The bits determine the double, so it is enough to find them again.
  have same (bits : bitsOf m e = x.toBits.toNat) : x = ofParts m e := by
    refine (Float.ofBits_toBits x).symm.trans (congrArg Float.ofBits ?_)
    exact (UInt64.ofNat_toNat (x := x.toBits)).symm.trans (congrArg UInt64.ofNat bits.symm)
  have unsigned (sign : ¬x.toBits.toNat / Nat.pow 2 63 = 1) : x.toBits.toNat =
      x.toBits.toNat / hidden % 2048 * hidden + x.toBits.toNat % hidden := by
    have word : x.toBits.toNat < 18446744073709551616 := x.toBits.toNat_lt
    have power : Nat.pow 2 63 = 9223372036854775808 := rfl
    rw [power] at sign
    rw [hidden_eq]
    omega
  simp only [exact] at parts
  generalize x.toBits.toNat / hidden % 2048 = biased at *
  generalize x.toBits.toNat % hidden = fraction at *
  split_ifs at parts with special infinite zero
  · cases parts
    refine ⟨⟨Nat.lt_of_lt_of_le low (by decide), le_refl _, by decide, .inr rfl⟩, fun sign => same ?_⟩
    rw [unsigned (of_decide_eq_false sign), bitsOf, if_pos low, zero]
    omega
  · cases parts
    refine ⟨⟨by omega, ?_, ?_, .inl (Nat.le_add_right _ _)⟩, fun sign => same ?_⟩
    · simp only [leastExponent]
      omega
    · simp only [greatestExponent]
      omega
    · have power : ((biased : Int) - 1075 + 1075).toNat = biased := by omega
      rw [unsigned (of_decide_eq_false sign), bitsOf, if_neg (Nat.not_lt.mpr (Nat.le_add_right _ _)),
        power, Nat.add_sub_cancel_left]

end Bits

section Grid

variable {q s : ℚ} {m r : Nat} {e : Int}

/-- Seen from a unit that some double has, a double is a whole number of units or lies below the
binade of the unit. -/
theorem value_on_grid {y : Float} {w : ℚ}
    (value : (exact y).value? = some w) :
    (∃ j : Int, w = j * 2 ^ e) ∨ (w < hidden * 2 ^ e ∧ e ≠ leastExponent) := by
  cases parts : exact y with
  | notANumber | infinite => simp [parts, Exact.value?] at value
  | finite negative n f =>
    obtain ⟨⟨narrow, low, -, -⟩, -⟩ := canonical_of_exact parts
    simp only [parts, Exact.value?, Option.some.injEq] at value
    subst value
    rcases le_or_gt e f with coarse | fine
    · refine .inl ⟨(if negative then -1 else 1) * n * 2 ^ (f - e).toNat, ?_⟩
      have power : (2 : ℚ) ^ f = 2 ^ (f - e).toNat * 2 ^ e := by
        rw [← zpow_natCast, ← zpow_add₀ two_ne_zero, Int.toNat_of_nonneg (sub_nonneg.mpr coarse),
          sub_add_cancel]
      rw [power]
      split_ifs <;> push_cast <;> ring
    · refine .inr ⟨?_, by omega⟩
      have narrow' : (n : ℚ) < 2 * hidden := by exact_mod_cast narrow
      calc (if negative then -1 else 1) * (n : ℚ) * 2 ^ f
          ≤ n * 2 ^ f := by
            have : 0 ≤ (n : ℚ) * 2 ^ f := by positivity
            split_ifs <;> linarith
        _ < 2 * hidden * 2 ^ f := mul_lt_mul_of_pos_right narrow' (by positivity)
        _ = hidden * 2 ^ (f + 1) := by rw [zpow_add_one₀ two_ne_zero]; ring
        _ ≤ hidden * 2 ^ e :=
            mul_le_mul_of_nonneg_left (zpow_le_zpow_right₀ one_le_two fine) (Nat.cast_nonneg _)

/-- A whole number that is within a half is as near as any other, and if another one is as near it
is at a half. -/
theorem closest_integer (close : |s - r| ≤ 1 / 2) (even : |s - r| = 1 / 2 → Even r) (j : Int) :
    |s - r| ≤ |s - j| ∧ (|s - r| = |s - j| → (j : ℚ) = r ∨ Even r) := by
  by_cases same : j = r
  · subst same
    exact ⟨by simp, fun _ => .inl (by simp)⟩
  · have apart : (1 : ℚ) ≤ |(j : ℚ) - r| := by
      have whole : 1 ≤ |j - r| := Int.one_le_abs (sub_ne_zero.mpr same)
      exact_mod_cast whole
    have triangle : |(j : ℚ) - r| ≤ |s - r| + |s - j| := by
      have := abs_sub_le (j : ℚ) s r
      rw [abs_sub_comm (j : ℚ) s] at this
      linarith
    refine ⟨by linarith, fun tied => .inr (even (by linarith))⟩

/-- The double of a whole number of units, where one more than the greatest significand is left over
to the next binade. -/
def ofUnits (r : Nat) (e : Int) : Float :=
  if r = 2 * hidden then ofParts hidden (e + 1) else ofParts r e

/-- A number that is rounded to a whole number of units of its binade is rounded to the nearest
double. -/
theorem nearest_ofUnits (bounded : q < limit) (least : leastExponent ≤ e)
    (greatest : e ≤ greatestExponent) (fits : r = 2 * hidden → e < greatestExponent)
    (narrow : r ≤ 2 * hidden) (binade : (hidden : ℚ) ≤ q / 2 ^ e ∨ e = leastExponent)
    (close : |q / 2 ^ e - r| ≤ 1 / 2) (even : |q / 2 ^ e - r| = 1 / 2 → Even r) :
    Nearest q (ofUnits r e) := by
  have unit : (0 : ℚ) < 2 ^ e := by positivity
  obtain ⟨m, f, parts, value, parity⟩ : ∃ m f, exact (ofUnits r e) = .finite false m f ∧
      (m : ℚ) * 2 ^ f = r * 2 ^ e ∧ (Even r → Even m) := by
    by_cases carries : r = 2 * hidden
    · refine ⟨hidden, e + 1, ?_, ?_, fun _ => by decide⟩
      · rw [ofUnits, if_pos carries]
        exact exact_ofParts ⟨by decide, by omega, fits carries, .inl (le_refl _)⟩
      · rw [carries, zpow_add_one₀ two_ne_zero]
        push_cast
        ring
    · refine ⟨r, e, ?_, rfl, id⟩
      rw [ofUnits, if_neg carries]
      refine exact_ofParts ⟨by omega, least, greatest, binade.imp_left fun normal => ?_⟩
      have near := (abs_le.mp close).2
      by_contra low
      have gap : (r : ℚ) + 1 ≤ hidden := by exact_mod_cast Nat.lt_of_not_le low
      linarith
  refine ⟨bounded, m, f, parts, fun y w read => ?_⟩
  have scaled (v : ℚ) : |q - v * 2 ^ e| = |q / 2 ^ e - v| * 2 ^ e := by
    rw [← abs_of_pos unit, ← abs_mul, abs_of_pos unit, sub_mul, div_mul_cancel₀ _ unit.ne']
  rw [value, scaled]
  rcases value_on_grid (e := e) read with ⟨j, rfl⟩ | ⟨below, inner⟩
  · obtain ⟨nearer, tied⟩ := closest_integer close even j
    rw [scaled, mul_le_mul_iff_left₀ unit, mul_left_inj' unit.ne', mul_left_inj' unit.ne']
    exact ⟨nearer, fun same => (tied same).imp_right parity⟩
  · have normal : (hidden : ℚ) ≤ q / 2 ^ e := binade.resolve_right inner
    have nearer := (closest_integer close even hidden).1
    rw [Int.cast_natCast, abs_of_nonneg (sub_nonneg.mpr normal)] at nearer
    have beyond : |q / 2 ^ e - r| * 2 ^ e < |q - w| :=
      calc |q / 2 ^ e - r| * 2 ^ e
          ≤ (q / 2 ^ e - hidden) * 2 ^ e := mul_le_mul_of_nonneg_right nearer unit.le
        _ = q - hidden * 2 ^ e := by rw [sub_mul, div_mul_cancel₀ _ unit.ne']
        _ < q - w := sub_lt_sub_left below q
        _ ≤ |q - w| := le_abs_self _
    exact ⟨beyond.le, fun same => absurd same beyond.ne⟩

/-- A finite double has one significand and one power of two. -/
theorem Canonical.unique {n : Nat} {f : Int} (here : Canonical m e) (there : Canonical n f)
    (same : (m : ℚ) * 2 ^ e = n * 2 ^ f) : m = n ∧ e = f := by
  wlog low : e ≤ f generalizing m n e f
  · obtain ⟨rfl, rfl⟩ := this there here same.symm (by omega)
    exact ⟨rfl, rfl⟩
  have scaled : m = n * 2 ^ (f - e).toNat := by
    have power : (2 : ℚ) ^ f = 2 ^ (f - e).toNat * 2 ^ e := by
      rw [← zpow_natCast, ← zpow_add₀ two_ne_zero, Int.toNat_of_nonneg (sub_nonneg.mpr low),
        sub_add_cancel]
    rw [power, ← mul_assoc, mul_left_inj' (by positivity)] at same
    exact_mod_cast same
  rcases low.eq_or_lt with rfl | less
  · simpa using scaled
  · -- The greater power of two would leave no room for the significand.
    have normal := there.normal.resolve_right (by have := here.least; omega)
    obtain ⟨k, more⟩ : ∃ k, (f - e).toNat = k + 1 := ⟨(f - e).toNat - 1, by omega⟩
    have wide : 2 * hidden ≤ m := by
      rw [scaled, more, pow_succ]
      nlinarith [Nat.one_le_two_pow (n := k)]
    exact absurd here.narrow (Nat.not_lt.mpr wide)

/-- Of two doubles with even significands neither is nearest to the number between them, since the
one after the lower one is nearer. -/
theorem not_between {n : Nat} {f : Int} (form : Canonical m e) (form' : Canonical n f)
    (even : Even m) (even' : Even n) (below : (m : ℚ) * 2 ^ e < n * 2 ^ f)
    (middle : 2 * q = m * 2 ^ e + n * 2 ^ f)
    (closest : ∀ y w, (exact y).value? = some w → |q - m * 2 ^ e| ≤ |q - w|) : False := by
  have unit : (0 : ℚ) < 2 ^ e := by positivity
  have after : Canonical (m + 1) e := by
    obtain ⟨narrow, least, greatest, normal⟩ := form
    refine ⟨?_, least, greatest, normal.imp_left Nat.le_succ_of_le⟩
    obtain ⟨k, rfl⟩ := even
    omega
  -- The double after the lower one does not lie beyond the upper one.
  have within : ((m + 1 : Nat) : ℚ) * 2 ^ e ≤ n * 2 ^ f := by
    rcases value_on_grid (e := e) (value_of_exact (exact_ofParts form')) with
      ⟨j, whole⟩ | ⟨low, inner⟩
    · rw [whole] at below ⊢
      have more : (m : ℚ) < j := lt_of_mul_lt_mul_of_nonneg_right below unit.le
      have next : (m : Int) + 1 ≤ j := by exact_mod_cast more
      exact mul_le_mul_of_nonneg_right (by exact_mod_cast next) unit.le
    · have normal : (hidden : ℚ) ≤ m := by exact_mod_cast form.normal.resolve_right inner
      have := mul_le_mul_of_nonneg_right normal unit.le
      linarith
  have apart : ((m + 1 : Nat) : ℚ) * 2 ^ e ≠ n * 2 ^ f := by
    intro same
    obtain ⟨rfl, -⟩ := after.unique form' same
    exact Nat.not_even_iff_odd.mpr even.add_one even'
  have inside := lt_of_le_of_ne within apart
  have nearer := closest _ _ (value_of_exact (exact_ofParts after))
  have beyond : (m : ℚ) * 2 ^ e < ((m + 1 : Nat) : ℚ) * 2 ^ e :=
    mul_lt_mul_of_pos_right (by exact_mod_cast Nat.lt_succ_self m) unit
  rw [abs_of_pos (by linarith)] at nearer
  exact absurd nearer (not_le.mpr (abs_lt.mpr ⟨by linarith, by linarith⟩))

/-- There is only one nearest double. -/
theorem Nearest.unique {x y : Float} (here : Nearest q x) (there : Nearest q y) : x = y := by
  obtain ⟨m, e, parts, closest⟩ := here.closest
  obtain ⟨n, f, parts', closest'⟩ := there.closest
  have value := value_of_exact parts
  have value' := value_of_exact parts'
  obtain ⟨form, first⟩ := canonical_of_exact parts
  obtain ⟨form', second⟩ := canonical_of_exact parts'
  have tied := le_antisymm (closest y _ value').1 (closest' x _ value).1
  by_cases same : (m : ℚ) * 2 ^ e = n * 2 ^ f
  · obtain ⟨rfl, rfl⟩ := form.unique form' same
    exact (first rfl).trans (second rfl).symm
  · have even := ((closest y _ value').2 tied).resolve_left (Ne.symm same)
    have even' := ((closest' x _ value).2 tied.symm).resolve_left same
    have middle : 2 * q = m * 2 ^ e + n * 2 ^ f := by
      rcases abs_eq_abs.mp tied with equal | opposite
      · exact absurd (sub_right_injective equal) same
      · linarith
    rcases lt_or_gt_of_ne same with below | above
    · exact (not_between form form' even even' below middle fun y w v => (closest y w v).1).elim
    · exact (not_between form' form even' even above (by linarith)
        fun y w v => (closest' y w v).1).elim

end Grid

end Statecraft.Double
