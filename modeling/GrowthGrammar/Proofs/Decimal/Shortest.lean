import GrowthGrammar.Proofs.Decimal.Digits
import GrowthGrammar.Proofs.Double.Rounding

/-!
# Shortest decimals round back

The shortest decimal of a positive double lies in the interval of the double, so it is rounded back
to it (`roundsTo_shortest`). A grid point is tested in whole numbers, and `isInside_iff` says that
the test is the interval itself. A grid narrower than half the interval has a point in it, and the
last of the grids that are tried is that narrow, because the first is hardly above the double.
-/

set_option autoImplicit false

namespace GrowthGrammar.Decimal

open Double (RoundsTo)

variable {b : Binary} {k : Int}

/-! ## Grid points in an interval -/

/-- The grid factor compares the two units: each is as often contained in a common one. -/
theorem Binary.exists_common_unit (b : Binary) (k : Int) :
    ∃ c : ℚ, 0 < c ∧ (2 : ℚ) ^ (b.exponent - 2) = (b.gridFactor k).1 * c ∧
      (10 : ℚ) ^ k = (b.gridFactor k).2 * c := by
  have hsplit : ∀ (base : ℚ) (z : Int), base ≠ 0 →
      base ^ z * base ^ (-z).toNat = base ^ z.toNat := by
    intro base z hbase
    rw [← zpow_natCast, ← zpow_natCast, ← zpow_add₀ hbase]
    congr 1
    omega
  have hnum : ((b.gridFactor k).1 : ℚ) = 2 ^ (b.exponent - 2).toNat * 10 ^ (-k).toNat := by
    simp [gridFactor]
  have hden : ((b.gridFactor k).2 : ℚ) = 2 ^ (-(b.exponent - 2)).toNat * 10 ^ k.toNat := by
    simp [gridFactor]
  have htwo := hsplit 2 (b.exponent - 2) (by norm_num)
  have hten := hsplit 10 k (by norm_num)
  have hpos : (0 : ℚ) < (b.gridFactor k).2 := by
    rw [hden]
    positivity
  refine ⟨10 ^ k / (b.gridFactor k).2, by positivity, ?_, ?_⟩
  · rw [mul_div_assoc', eq_div_iff hpos.ne', hnum, hden, ← htwo, ← hten]
    ring
  · rw [mul_div_cancel₀ _ hpos.ne']

theorem Binary.gridFactor_pos (b : Binary) (k : Int) :
    0 < (b.gridFactor k).1 ∧ 0 < (b.gridFactor k).2 := by
  constructor
  · show 0 < 2 ^ _ * 10 ^ _
    positivity
  · show 0 < 2 ^ _ * 10 ^ _
    positivity

/-- The whole-number test for a multiple of `10 ^ k` in an interval. -/
def Binary.isInside (b : Binary) (k : Int) (a : Nat) : Bool :=
  if b.significand % 2 = 0 then
    b.interval.1 * (b.gridFactor k).1 ≤ a * (b.gridFactor k).2 &&
      a * (b.gridFactor k).2 ≤ b.interval.2 * (b.gridFactor k).1
  else
    b.interval.1 * (b.gridFactor k).1 < a * (b.gridFactor k).2 &&
      a * (b.gridFactor k).2 < b.interval.2 * (b.gridFactor k).1

theorem Binary.isInside_iff {a : Nat} : b.isInside k a = true ↔ RoundsTo b (a * 10 ^ k) := by
  obtain ⟨c, hc, hunit, hgrid⟩ := b.exists_common_unit k
  have hle : ∀ m n : Nat, (m : ℚ) * c ≤ n * c ↔ m ≤ n := fun m n => by
    rw [mul_le_mul_iff_of_pos_right hc, Nat.cast_le]
  have hlt : ∀ m n : Nat, (m : ℚ) * c < n * c ↔ m < n := fun m n => by
    rw [mul_lt_mul_iff_of_pos_right hc, Nat.cast_lt]
  have hquarter : ∀ n : Nat, (n : ℚ) * 2 ^ (b.exponent - 2) = (n * (b.gridFactor k).1 : ℕ) * c := by
    intro n
    rw [hunit, ← mul_assoc, Nat.cast_mul]
  have hpoint : (a : ℚ) * 10 ^ k = (a * (b.gridFactor k).2 : ℕ) * c := by
    rw [hgrid, ← mul_assoc, Nat.cast_mul]
  unfold isInside
  by_cases heven : b.significand % 2 = 0
  · rw [if_pos heven, Bool.and_eq_true, decide_eq_true_eq, decide_eq_true_eq]
    constructor
    · rintro ⟨hlow, hhigh⟩
      refine ⟨?_, ?_, fun hodd => absurd hodd (by omega)⟩
      · rwa [hquarter, hpoint, hle]
      · rwa [hquarter, hpoint, hle]
    · rintro ⟨hlow, hhigh, -⟩
      rw [hquarter, hpoint, hle] at hlow hhigh
      exact ⟨hlow, hhigh⟩
  · rw [if_neg heven, Bool.and_eq_true, decide_eq_true_eq, decide_eq_true_eq]
    constructor
    · rintro ⟨hlow, hhigh⟩
      rw [← hlt, ← hquarter, ← hpoint] at hlow hhigh
      exact ⟨hlow.le, hhigh.le, fun _ => ⟨hlow, hhigh⟩⟩
    · rintro ⟨-, -, hodd⟩
      obtain ⟨hlow, hhigh⟩ := hodd (by omega)
      rw [hquarter, hpoint, hlt] at hlow hhigh
      exact ⟨hlow, hhigh⟩

/-- The grid point at or below the magnitude. -/
def Binary.below (b : Binary) (k : Int) : Nat :=
  4 * b.significand * (b.gridFactor k).1 / (b.gridFactor k).2

/-- Whatever is found on a grid is inside, and nothing is found only if the point above the
magnitude is outside. -/
theorem Binary.onGrid?_cases (tie : Tie) (b : Binary) (k : Int) :
    (∃ a, b.onGrid? tie k = some a ∧ b.isInside k a = true) ∨
      b.onGrid? tie k = none ∧ b.isInside k (b.below k + 1) = false := by
  -- give the test and the quotient their names
  have hinside : ∀ a, (if b.significand % 2 = 0 then
      decide (b.interval.1 * (b.gridFactor k).1 ≤ a * (b.gridFactor k).2) &&
        decide (a * (b.gridFactor k).2 ≤ b.interval.2 * (b.gridFactor k).1)
    else
      decide (b.interval.1 * (b.gridFactor k).1 < a * (b.gridFactor k).2) &&
        decide (a * (b.gridFactor k).2 < b.interval.2 * (b.gridFactor k).1)) = b.isInside k a :=
    fun _ => rfl
  have hbelow : 4 * b.significand * (b.gridFactor k).1 / (b.gridFactor k).2 = b.below k := rfl
  simp only [onGrid?, hinside, hbelow]
  cases hlow : b.isInside k (b.below k) <;> cases hhigh : b.isInside k (b.below k + 1)
  · exact .inr ⟨rfl, rfl⟩
  · exact .inl ⟨_, rfl, hhigh⟩
  · exact .inl ⟨_, rfl, hlow⟩
  · refine .inl ?_
    dsimp only
    split
    · exact ⟨_, rfl, hlow⟩
    · split
      · exact ⟨_, rfl, hhigh⟩
      · cases tie with
        | up => exact ⟨_, rfl, hhigh⟩
        | even =>
            refine ⟨_, rfl, ?_⟩
            split
            · exact hlow
            · exact hhigh

theorem Binary.roundsTo_of_onGrid? {tie : Tie} {a : Nat} (h : b.onGrid? tie k = some a) :
    RoundsTo b (a * 10 ^ k) := by
  obtain ⟨found, hfound, hinside⟩ | ⟨hnone, -⟩ := b.onGrid?_cases tie k
  · obtain rfl : found = a := Option.some.inj (hfound.symm.trans h)
    exact isInside_iff.1 hinside
  · rw [hnone] at h
    cases h

/-- A grid whose points are less than half the interval apart has a point in it. -/
theorem Binary.exists_onGrid? (tie : Tie) (hpos : 0 < b.significand)
    (hfine : (10 : ℚ) ^ k < 2 * 2 ^ (b.exponent - 2)) : ∃ a, b.onGrid? tie k = some a := by
  obtain ⟨a, ha, -⟩ | ⟨-, houtside⟩ := b.onGrid?_cases tie k
  · exact ⟨a, ha⟩
  · exfalso
    obtain ⟨c, hc, hunit, hgrid⟩ := b.exists_common_unit k
    have hden := (b.gridFactor_pos k).2
    -- the point above the magnitude is less than a step away, half the interval is more
    have hfloor : b.below k * (b.gridFactor k).2 ≤ 4 * b.significand * (b.gridFactor k).1 :=
      Nat.div_mul_le_self _ _
    have hnext : 4 * b.significand * (b.gridFactor k).1 < (b.below k + 1) * (b.gridFactor k).2 :=
      Nat.lt_mul_of_div_lt (Nat.lt_succ_self _) hden
    have hstep : (b.gridFactor k).2 < 2 * (b.gridFactor k).1 := by
      rw [hunit, hgrid, ← mul_assoc] at hfine
      exact_mod_cast lt_of_mul_lt_mul_right hfine hc.le
    have hlow : b.interval.1 < 4 * b.significand := by
      unfold interval
      dsimp only
      split <;> omega
    have hhigh : b.interval.2 = 4 * b.significand + 2 := rfl
    have hinside : b.isInside k (b.below k + 1) = true := by
      have habove : b.interval.1 * (b.gridFactor k).1 < (b.below k + 1) * (b.gridFactor k).2 :=
        lt_of_le_of_lt (Nat.mul_le_mul_right _ hlow.le) hnext
      have hbeneath : (b.below k + 1) * (b.gridFactor k).2 <
          b.interval.2 * (b.gridFactor k).1 := by
        rw [hhigh, add_mul, add_mul]
        omega
      unfold isInside
      split
      · rw [Bool.and_eq_true, decide_eq_true_eq, decide_eq_true_eq]
        exact ⟨habove.le, hbeneath.le⟩
      · rw [Bool.and_eq_true, decide_eq_true_eq, decide_eq_true_eq]
        exact ⟨habove, hbeneath⟩
    rw [hinside] at houtside
    cases houtside

/-! ## The grids that are tried -/

/-- The length of a whole part bounds a quotient from below. -/
theorem pow_length_le_div {m n : Nat} (hn : 0 < n) (hle : n ≤ m) :
    (10 : ℚ) ^ (((numeral (m / n)).length : Int) - 1) ≤ m / n := by
  have hpos : 0 < m / n := Nat.div_pos hle hn
  have hlength := List.length_pos_iff.2 (numeral_ne_nil (m / n))
  calc (10 : ℚ) ^ (((numeral (m / n)).length : Int) - 1)
      = 10 ^ ((numeral (m / n)).length - 1) := by
        rw [← zpow_natCast]
        congr 1
        omega
    _ ≤ (m / n : ℕ) := by exact_mod_cast pow_length_numeral_le hpos
    _ ≤ m / n := Nat.cast_div_le

/-- The length of the inverse's whole part does so below one. -/
theorem pow_neg_length_le_div {m n : Nat} (hm : 0 < m) (hn : 0 < n) :
    (10 : ℚ) ^ (-((numeral (n / m)).length : Int)) ≤ m / n := by
  have hlt : n < 10 ^ (numeral (n / m)).length * m :=
    (Nat.div_lt_iff_lt_mul hm).1 (lt_pow_length_numeral (n / m))
  have hnq : (0 : ℚ) < n := by exact_mod_cast hn
  rw [zpow_neg, zpow_natCast, inv_le_iff_one_le_mul₀ (by positivity), div_mul_eq_mul_div,
    le_div_iff₀ hnq, one_mul, mul_comm]
  exact_mod_cast hlt.le

/-- The first grid is hardly coarser than the magnitude. -/
theorem Binary.pow_coarsestGrid_le (hpos : 0 < b.significand) :
    (10 : ℚ) ^ (b.coarsestGrid - 1) ≤ b.significand * 2 ^ b.exponent := by
  obtain ⟨c, hc, hunit, hgrid⟩ := b.exists_common_unit 0
  obtain ⟨hnum, hden⟩ := b.gridFactor_pos 0
  have hexact : 0 < 4 * b.significand * (b.gridFactor 0).1 := by positivity
  have hvalue : (b.significand : ℚ) * 2 ^ b.exponent =
      (4 * b.significand * (b.gridFactor 0).1 : ℕ) / (b.gridFactor 0).2 := by
    have hdenq : (0 : ℚ) < (b.gridFactor 0).2 := by exact_mod_cast hden
    -- `exact / den` in the definition is the magnitude itself
    have hquarter : (2 : ℚ) ^ b.exponent = 4 * ((b.gridFactor 0).1 * c) := by
      rw [← hunit]
      exact Double.two_zpow_eq_quarters b.exponent
    rw [eq_div_iff hdenq.ne', hquarter]
    calc (b.significand : ℚ) * (4 * ((b.gridFactor 0).1 * c)) * (b.gridFactor 0).2
        = 4 * b.significand * (b.gridFactor 0).1 * ((b.gridFactor 0).2 * c) := by ring
      _ = (4 * b.significand * (b.gridFactor 0).1 : ℕ) := by
        rw [← hgrid, zpow_zero, mul_one]
        push_cast
        rfl
  rw [hvalue]
  unfold coarsestGrid
  dsimp only
  split
  · next hle => exact pow_length_le_div hden hle
  · rw [sub_sub_cancel_left]
    exact pow_neg_length_le_div hexact hden

/-- The last of the grids that are tried is narrow enough. -/
theorem Binary.lastGrid_lt (hpos : 0 < b.significand) (hlt : b.significand < 2 ^ 53) :
    (10 : ℚ) ^ (b.coarsestGrid - (19 : ℕ)) < 2 * 2 ^ (b.exponent - 2) := by
  have hsignificand : (b.significand : ℚ) < 2 ^ 53 := by exact_mod_cast hlt
  have hunit : (0 : ℚ) < 2 ^ (b.exponent - 2) := by positivity
  calc (10 : ℚ) ^ (b.coarsestGrid - (19 : ℕ))
      = 10 ^ (b.coarsestGrid - 1) * 10 ^ (-18 : ℤ) := by
        rw [← zpow_add₀ (by norm_num)]
        congr 1
        push_cast
        ring
    _ ≤ b.significand * 2 ^ b.exponent * 10 ^ (-18 : ℤ) :=
        mul_le_mul_of_nonneg_right (pow_coarsestGrid_le hpos) (by positivity)
    _ = b.significand * (4 * 10 ^ (-18 : ℤ)) * 2 ^ (b.exponent - 2) := by
        rw [Double.two_zpow_eq_quarters]
        ring
    _ < 2 * 2 ^ (b.exponent - 2) := by
        refine mul_lt_mul_of_pos_right ?_ hunit
        norm_num
        linarith

/-- **Rounding back.** The shortest decimal of a positive double lies in its interval. -/
theorem roundsTo_shortest (tie : Tie) (hpos : 0 < b.significand) (hlt : b.significand < 2 ^ 53) :
    RoundsTo b ((shortest tie b).significand * 10 ^ (shortest tie b).exponent) := by
  have hfound : ((List.range 20).findSome? fun step : Nat =>
      (b.onGrid? tie (b.coarsestGrid - step)).map fun a =>
        (⟨a, b.coarsestGrid - step⟩ : Scaled)) ≠ none := by
    intro hnone
    -- if no grid had a point, neither had the last one
    obtain ⟨a, ha⟩ := Binary.exists_onGrid? tie hpos (Binary.lastGrid_lt hpos hlt)
    have hlast := List.findSome?_eq_none_iff.1 hnone 19 (by decide)
    rw [ha] at hlast
    cases hlast
  obtain ⟨decimal, hdecimal⟩ := Option.ne_none_iff_exists'.1 hfound
  have hshortest : shortest tie b = decimal := by
    unfold shortest
    dsimp only
    rw [hdecimal]
    rfl
  obtain ⟨step, -, hstep⟩ := List.exists_of_findSome?_eq_some hdecimal
  obtain ⟨a, ha, rfl⟩ := Option.map_eq_some_iff.1 hstep
  rw [hshortest]
  exact Binary.roundsTo_of_onGrid? ha

/-- It has a digit other than zero. -/
theorem significand_shortest_pos (tie : Tie) (hpos : 0 < b.significand)
    (hlt : b.significand < 2 ^ 53) : 0 < (shortest tie b).significand := by
  by_contra hzero
  have hlow := (roundsTo_shortest tie hpos hlt).low_le
  rw [Nat.eq_zero_of_not_pos hzero, Nat.cast_zero, zero_mul] at hlow
  have hinterval : 0 < b.interval.1 := by
    unfold Binary.interval
    dsimp only
    split <;> omega
  have : (0 : ℚ) < b.interval.1 * 2 ^ (b.exponent - 2) := by
    have : (0 : ℚ) < b.interval.1 := by exact_mod_cast hinterval
    positivity
  linarith

end GrowthGrammar.Decimal
