import Statecraft.Proofs.NearestDouble

/-! Quotients are rounded to the nearest double. A quotient is brought to its binade, or to the lowest
one, and rounded there to a whole number of units. It is too large from halfway above the greatest
double on. -/
namespace Statecraft.Double

variable {num den : Nat}

theorem roundHalfEven_spec (num : Nat) (positive : 0 < den) :
    |(num : ℚ) / den - roundHalfEven num den| ≤ 1 / 2 ∧
      (|(num : ℚ) / den - roundHalfEven num den| = 1 / 2 → Even (roundHalfEven num den)) := by
  have unit : (0 : ℚ) < den := by exact_mod_cast positive
  have split : (num : ℚ) / den = (num / den : Nat) + (num % den : Nat) / (den : ℚ) := by
    rw [eq_comm, ← mul_left_inj' unit.ne', add_mul, div_mul_cancel₀ _ unit.ne',
      div_mul_cancel₀ _ unit.ne']
    exact_mod_cast Nat.div_add_mod' num den
  have product : (num % den : Nat) / (den : ℚ) * den = (num % den : Nat) :=
    div_mul_cancel₀ _ unit.ne'
  have small : (num % den : Nat) / (den : ℚ) < 1 :=
    (div_lt_one unit).mpr (by exact_mod_cast Nat.mod_lt num positive)
  simp only [roundHalfEven, split]
  generalize num / den = whole at *
  generalize num % den = rest at *
  generalize (rest : ℚ) / den = part at *
  split_ifs with up
  · have above : (den : ℚ) ≤ 2 * rest := by exact_mod_cast (by omega : den ≤ 2 * rest)
    have half : 1 / 2 ≤ part := by
      rw [← product] at above
      nlinarith
    have error : |whole + part - ((whole + 1 : Nat) : ℚ)| = 1 - part := by
      rw [← abs_neg, abs_of_nonneg] <;> push_cast <;> linarith
    rw [error]
    refine ⟨by linarith, fun tie => ?_⟩
    have tied : 2 * rest = den := by
      have : 2 * (rest : ℚ) = den := by
        rw [← product, show part = 1 / 2 by linarith]
        ring
      exact_mod_cast this
    have odd := (up.resolve_left (by omega)).2
    exact (Nat.odd_iff.mpr odd).add_one
  · have below : 2 * (rest : ℚ) ≤ den := by exact_mod_cast (by omega : 2 * rest ≤ den)
    have half : part ≤ 1 / 2 := by
      rw [← product] at below
      nlinarith
    have positive' : 0 ≤ part := by
      have : (0 : ℚ) ≤ part * den := product ▸ Nat.cast_nonneg rest
      exact nonneg_of_mul_nonneg_left this unit
    rw [add_sub_cancel_left, abs_of_nonneg positive']
    refine ⟨half, fun tie => ?_⟩
    have tied : 2 * rest = den := by
      have : 2 * (rest : ℚ) = den := by
        rw [← product, tie]
        ring
      exact_mod_cast this
    exact Nat.even_iff.mpr (by omega)

theorem scaled_spec (num : Nat) (positive : 0 < den) (e : Int) :
    0 < (scaled num den e).2 ∧
      ((scaled num den e).1 : ℚ) / (scaled num den e).2 = (num : ℚ) / den / 2 ^ e := by
  have power : (2 : ℚ) ^ e = 2 ^ e.toNat / 2 ^ (-e).toNat := by
    rw [← zpow_natCast, ← zpow_natCast, ← zpow_sub₀ two_ne_zero]
    congr 1
    omega
  refine ⟨Nat.mul_pos positive (Nat.pow_pos two_pos), ?_⟩
  simp only [scaled, Nat.pow_eq, Nat.cast_mul, Nat.cast_pow, Nat.cast_ofNat]
  rw [power]
  field_simp

theorem log2_spec {n : Nat} (nonzero : n ≠ 0) :
    (2 : ℚ) ^ (n.log2 : Int) ≤ n ∧ (n : ℚ) < 2 ^ (n.log2 + 1 : Int) := by
  constructor
  · rw [zpow_natCast]
    exact_mod_cast Nat.log2_self_le nonzero
  · rw [← Nat.cast_succ, zpow_natCast]
    exact_mod_cast Nat.lt_log2_self

/-- The guess from the binary places is right or one too large. -/
theorem guess_spec (nonzero : num ≠ 0) (positive : 0 < den) :
    (hidden : ℚ) / 2 ≤ (num : ℚ) / den / 2 ^ ((num.log2 : Int) - den.log2 - 52) ∧
      (num : ℚ) / den / 2 ^ ((num.log2 : Int) - den.log2 - 52) < 2 * hidden := by
  obtain ⟨low, high⟩ := log2_spec nonzero
  obtain ⟨low', high'⟩ := log2_spec positive.ne'
  have unit : (0 : ℚ) < den := by exact_mod_cast positive
  have whole : (hidden : ℚ) = 2 ^ (52 : Int) := by norm_num [hidden_eq]
  rw [div_div, le_div_iff₀ (by positivity), div_lt_iff₀ (by positivity), whole]
  constructor
  · calc (2 : ℚ) ^ (52 : Int) / 2 * (den * 2 ^ ((num.log2 : Int) - den.log2 - 52))
        ≤ 2 ^ (52 : Int) / 2 * (2 ^ (den.log2 + 1 : Int) * 2 ^ ((num.log2 : Int) - den.log2 - 52)) := by
          gcongr
      _ = 2 ^ (num.log2 : Int) := by
          rw [div_mul_eq_mul_div, div_eq_iff two_ne_zero, ← zpow_add₀ two_ne_zero,
            ← zpow_add₀ two_ne_zero, ← zpow_add_one₀ two_ne_zero]
          congr 1
          omega
      _ ≤ num := low
  · calc (num : ℚ) < 2 ^ (num.log2 + 1 : Int) := high
      _ = 2 * 2 ^ (52 : Int) * (2 ^ (den.log2 : Int) * 2 ^ ((num.log2 : Int) - den.log2 - 52)) := by
          rw [mul_assoc, ← zpow_add₀ two_ne_zero, ← zpow_add₀ two_ne_zero, ← zpow_one_add₀ two_ne_zero]
          congr 1
          omega
      _ ≤ 2 * 2 ^ (52 : Int) * (den * 2 ^ ((num.log2 : Int) - den.log2 - 52)) := by
          gcongr

/-- The significand has 53 bits there. -/
theorem normalExponent_spec (nonzero : num ≠ 0) (positive : 0 < den) :
    (hidden : ℚ) ≤ (num : ℚ) / den / 2 ^ normalExponent num den ∧
      (num : ℚ) / den / 2 ^ normalExponent num den < 2 * hidden := by
  obtain ⟨low, high⟩ := guess_spec nonzero positive
  simp only [normalExponent]
  generalize (num.log2 : Int) - den.log2 - 52 = guess at *
  obtain ⟨positive', same⟩ := scaled_spec num positive guess
  have unit : (0 : ℚ) < (scaled num den guess).2 := by exact_mod_cast positive'
  split_ifs with short
  · rw [Nat.div_lt_iff_lt_mul positive'] at short
    have below : (num : ℚ) / den / 2 ^ guess < hidden := by
      rw [← same, div_lt_iff₀ unit]
      exact_mod_cast short
    have twice : (num : ℚ) / den / 2 ^ (guess - 1) = 2 * ((num : ℚ) / den / 2 ^ guess) := by
      rw [zpow_sub_one₀ two_ne_zero]
      field_simp
    rw [twice]
    constructor <;> linarith
  · rw [not_lt, Nat.le_div_iff_mul_le positive'] at short
    refine ⟨?_, high⟩
    rw [← same, le_div_iff₀ unit]
    exact_mod_cast short

/-- The quotient is rounded in its binade, or in the lowest one. -/
theorem nearest?_eq (nonzero : num ≠ 0) (positive : 0 < den) :
    ∃ (e : Int) (r : Nat), leastExponent ≤ e ∧ (num : ℚ) / den / 2 ^ e < 2 * hidden ∧
      ((hidden : ℚ) ≤ (num : ℚ) / den / 2 ^ e ∨ e = leastExponent) ∧
      |(num : ℚ) / den / 2 ^ e - r| ≤ 1 / 2 ∧
      (|(num : ℚ) / den / 2 ^ e - r| = 1 / 2 → Even r) ∧
      nearest? num den =
        if greatestExponent < e ∨ (r = 2 * hidden ∧ e = greatestExponent) then none
        else some (ofUnits r e) := by
  obtain ⟨low, high⟩ := normalExponent_spec nonzero positive
  obtain ⟨positive', same⟩ := scaled_spec num positive (max (normalExponent num den) leastExponent)
  obtain ⟨close, even⟩ := roundHalfEven_spec
    (scaled num den (max (normalExponent num den) leastExponent)).1 positive'
  rw [same] at close even
  refine ⟨max (normalExponent num den) leastExponent, _, le_max_right _ _, ?_, ?_, close, even, ?_⟩
  · refine lt_of_le_of_lt ?_ high
    exact div_le_div_of_nonneg_left (by positivity) (by positivity)
      (zpow_le_zpow_right₀ one_le_two (le_max_left _ _))
  · rcases le_total leastExponent (normalExponent num den) with normal | subnormal
    · rw [max_eq_left normal]
      exact .inl low
    · exact .inr (max_eq_right subnormal)
  · simp only [nearest?, nonzero, if_false, ofUnits]
    generalize max (normalExponent num den) leastExponent = e
    generalize roundHalfEven (scaled num den e).1 (scaled num den e).2 = r
    by_cases carries : r = 2 * hidden
    · simp only [carries, if_true, true_and]
      congr 1
      exact propext (by omega)
    · simp [carries]

theorem limit_eq : limit = (2 * hidden - 1 / 2) * 2 ^ greatestExponent := by
  have greatest : (2 : ℚ) ^ greatestExponent = 2 * 2 ^ 970 := by
    rw [← pow_succ', greatestExponent, ← zpow_natCast]
    rfl
  have beyond : (2 : ℚ) ^ 1024 = 2 ^ 54 * 2 ^ 970 := (pow_add 2 54 970)
  rw [limit, greatest, beyond, hidden_eq]
  generalize (2 : ℚ) ^ 970 = unit
  ring

theorem limit_le_of_binade {q : ℚ} {e : Int} (normal : (hidden : ℚ) ≤ q / 2 ^ e)
    (beyond : greatestExponent < e) : limit ≤ q := by
  have unit : (0 : ℚ) < 2 ^ greatestExponent := by positivity
  calc limit = (2 * hidden - 1 / 2) * 2 ^ greatestExponent := limit_eq
    _ ≤ hidden * 2 ^ (greatestExponent + 1) := by
      rw [zpow_add_one₀ two_ne_zero]
      linarith
    _ ≤ hidden * 2 ^ e :=
      mul_le_mul_of_nonneg_left (zpow_le_zpow_right₀ one_le_two beyond) (Nat.cast_nonneg _)
    _ ≤ q := (le_div_iff₀ (by positivity)).mp normal

theorem lt_limit_of_binade {q : ℚ} {e : Int} (narrow : q / 2 ^ e < 2 * hidden)
    (below : e < greatestExponent) : q < limit := by
  have unit : (0 : ℚ) < 2 ^ greatestExponent := by positivity
  calc q < 2 * hidden * 2 ^ e := (div_lt_iff₀ (by positivity)).mp narrow
    _ = hidden * 2 ^ (e + 1) := by
      rw [zpow_add_one₀ two_ne_zero]
      ring
    _ ≤ hidden * 2 ^ greatestExponent :=
      mul_le_mul_of_nonneg_left (zpow_le_zpow_right₀ one_le_two below) (Nat.cast_nonneg _)
    _ ≤ (2 * hidden - 1 / 2) * 2 ^ greatestExponent :=
      mul_le_mul_of_nonneg_right (by norm_num [hidden_eq]) unit.le
    _ = limit := limit_eq.symm

/-- The binades end where numbers are too large. In the last one it is those that are rounded up to
its end. -/
theorem tooLarge_iff {q : ℚ} {e : Int} {r : Nat} (narrow : q / 2 ^ e < 2 * hidden)
    (binade : (hidden : ℚ) ≤ q / 2 ^ e ∨ e = leastExponent) (few : r ≤ 2 * hidden)
    (close : |q / 2 ^ e - r| ≤ 1 / 2) (even : |q / 2 ^ e - r| = 1 / 2 → Even r) :
    greatestExponent < e ∨ (r = 2 * hidden ∧ e = greatestExponent) ↔ limit ≤ q := by
  obtain ⟨above, below⟩ := abs_le.mp close
  rcases lt_trichotomy e greatestExponent with lower | rfl | beyond
  · have inside := lt_limit_of_binade narrow lower
    exact iff_of_false (by omega) (not_le.mpr inside)
  · have unit : (0 : ℚ) < 2 ^ greatestExponent := by positivity
    rw [limit_eq, ← le_div_iff₀ unit]
    constructor
    · rintro (beyond | ⟨rfl, -⟩)
      · exact absurd beyond (lt_irrefl _)
      · push_cast at above
        linarith
    · intro far
      by_contra inside
      have other : r ≠ 2 * hidden := fun carries => inside (.inr ⟨carries, rfl⟩)
      have gap : (r : ℚ) + 1 ≤ 2 * hidden := by exact_mod_cast lt_of_le_of_ne few other
      have tie : q / 2 ^ greatestExponent - r = 1 / 2 := by linarith
      have odd : r + 1 = 2 * hidden := by
        have : (r : ℚ) + 1 = 2 * hidden := by linarith
        exact_mod_cast this
      obtain ⟨k, rfl⟩ := even (by rw [tie]; norm_num)
      omega
  · have apart : e ≠ leastExponent := by
      rintro rfl
      exact absurd beyond (by decide)
    exact iff_of_true (.inl beyond) (limit_le_of_binade (binade.resolve_right apart) beyond)

/-- The result is the nearest double; only a number that is too large has none. -/
theorem nearest?_spec (num : Nat) (positive : 0 < den) :
    (∀ x, nearest? num den = some x → Nearest ((num : ℚ) / den) x) ∧
      (nearest? num den = none ↔ limit ≤ (num : ℚ) / den) := by
  by_cases nonzero : num = 0
  · subst nonzero
    have positive' : ¬limit ≤ ((0 : Nat) : ℚ) / den := by
      rw [Nat.cast_zero, zero_div, limit_eq, not_le]
      have : (0 : ℚ) < 2 * hidden - 1 / 2 := by norm_num [hidden_eq]
      positivity
    refine ⟨?_, by simpa [nearest?] using positive'⟩
    rintro _ ⟨⟩
    refine nearest_ofUnits (r := 0) (not_le.mp positive') (le_refl _) (by decide) (by decide)
      (by decide) (.inr rfl) (by simp) fun _ => .zero
  obtain ⟨e, r, least, narrow, binade, close, even, rounded⟩ := nearest?_eq nonzero positive
  generalize (num : ℚ) / den = q at *
  have few : r ≤ 2 * hidden := by
    have above := (abs_le.mp close).1
    have : (r : ℚ) < 2 * hidden + 1 := by linarith
    exact Nat.lt_succ_iff.mp (by exact_mod_cast this)
  rw [rounded, ← tooLarge_iff narrow binade few close even]
  split_ifs with large
  · exact ⟨nofun, by simpa using large⟩
  · refine ⟨?_, by simpa using large⟩
    rintro _ ⟨⟩
    have bounded := not_le.mp (mt (tooLarge_iff narrow binade few close even).mpr large)
    exact nearest_ofUnits bounded least (by omega) (by omega) few binade close even

end Statecraft.Double
