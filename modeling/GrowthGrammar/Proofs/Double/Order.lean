import GrowthGrammar.Proofs.Double.Sum

/-!
# The order of weights

Weights are compared by their unpacked forms, the exponents before the significands. As all forms are
canonical, that is the order of the magnitudes they stand for (`lt_iff_magnitude`,
`le_iff_magnitude`).
-/

set_option autoImplicit false

namespace GrowthGrammar.Double

open Float.Model Float.Model.UnpackedFloat

/-! ## Canonical forms -/

section Canonical

variable {m n : ℕ} {e f : ℤ}

/-- 53 bits at one exponent are no more than 52 at the next. -/
theorem two_pow_mul_le (h : e < f) : (2 : ℚ) ^ 53 * 2 ^ e ≤ 2 ^ 52 * 2 ^ f :=
  calc (2 : ℚ) ^ 53 * 2 ^ e = 2 ^ (e + 53) := (zpow_eq_pow_mul two_ne_zero rfl).symm
    _ = 2 ^ 52 * 2 ^ (e + 1) := zpow_eq_pow_mul two_ne_zero (by push_cast; ring)
    _ ≤ 2 ^ 52 * 2 ^ f :=
      mul_le_mul_of_nonneg_left (zpow_le_zpow_right₀ (by norm_num) (by omega)) (by norm_num)

/-- A greater exponent outweighs every significand. -/
theorem IsCanonical.value_lt (hm : IsCanonical m e) (hn : IsCanonical n f) (h : e < f) :
    (m : ℚ) * 2 ^ e < n * 2 ^ f := by
  have hfull : 2 ^ 52 ≤ n := by
    have hmin := hm.min_le
    exact hn.full.resolve_right (by omega)
  have hlt : (m : ℚ) < 2 ^ 53 := by exact_mod_cast hm.lt
  have hle : (2 : ℚ) ^ 52 ≤ n := by exact_mod_cast hfull
  calc (m : ℚ) * 2 ^ e < 2 ^ 53 * 2 ^ e := mul_lt_mul_of_pos_right hlt (by positivity)
    _ ≤ 2 ^ 52 * 2 ^ f := two_pow_mul_le h
    _ ≤ n * 2 ^ f := mul_le_mul_of_nonneg_right hle (by positivity)

/-- Comparing exponents before significands is comparing values. -/
theorem IsCanonical.compare_eq (hm : IsCanonical m e) (hn : IsCanonical n f) :
    (compare e f).then (compare m n) = compare ((m : ℚ) * 2 ^ e) (n * 2 ^ f) := by
  rcases lt_trichotomy e f with h | rfl | h
  · rw [compare_lt_iff_lt.2 h, compare_lt_iff_lt.2 (hm.value_lt hn h)]
    rfl
  · have hunit : (0 : ℚ) < 2 ^ e := by positivity
    rw [compare_eq_iff_eq.2 rfl]
    show compare m n = _
    rcases lt_trichotomy m n with h | rfl | h
    · have hcast : (m : ℚ) < n := by exact_mod_cast h
      rw [compare_lt_iff_lt.2 h, compare_lt_iff_lt.2 (mul_lt_mul_of_pos_right hcast hunit)]
    · rw [compare_eq_iff_eq.2 rfl, compare_eq_iff_eq.2 rfl]
    · have hcast : (n : ℚ) < m := by exact_mod_cast h
      rw [compare_gt_iff_gt.2 h, compare_gt_iff_gt.2 (mul_lt_mul_of_pos_right hcast hunit)]
  · rw [compare_gt_iff_gt.2 h, compare_gt_iff_gt.2 (hn.value_lt hm h)]
    rfl

end Canonical

/-! ## Magnitudes -/

/-- The magnitude of a finite double. -/
def magnitude (x : Float) : ℚ :=
  (Decimal.Binary.ofFloat x).significand * 2 ^ (Decimal.Binary.ofFloat x).exponent

section Magnitude

variable {x y : Float}

theorem magnitude_nonneg (x : Float) : 0 ≤ magnitude x := by
  unfold magnitude
  positivity

theorem isCanonical_of_isWeight (hx : isWeight x = true) :
    IsCanonical (Decimal.Binary.ofFloat x).significand (Decimal.Binary.ofFloat x).exponent :=
  isCanonical_ofFloat (isFinite_of_isWeight hx)

/-- Finite doubles lie below `2 ^ 1024`. -/
theorem magnitude_lt (hx : x.isFinite = true) : magnitude x < 2 ^ (1024 : ℤ) := by
  obtain ⟨hlt, -, hmax, -⟩ := isCanonical_ofFloat hx
  have hcast : ((Decimal.Binary.ofFloat x).significand : ℚ) < 2 ^ 53 := by exact_mod_cast hlt
  calc magnitude x < 2 ^ 53 * 2 ^ (Decimal.Binary.ofFloat x).exponent :=
        mul_lt_mul_of_pos_right hcast (by positivity)
    _ ≤ 2 ^ 53 * 2 ^ (971 : ℤ) :=
      mul_le_mul_of_nonneg_left (zpow_le_zpow_right₀ (by norm_num) hmax) (by norm_num)
    _ = 2 ^ (1024 : ℤ) := (zpow_eq_pow_mul two_ne_zero (by norm_num)).symm

/-- A weight is unpacked to a zero, or else to its magnitude. -/
theorem unpack_of_isWeight (hx : isWeight x = true) :
    (∃ s, x.toModel.unpack = .zero s) ∨
      ∃ hpos, x.toModel.unpack = .finite .positive (Decimal.Binary.ofFloat x).significand
        (Decimal.Binary.ofFloat x).exponent hpos := by
  rcases Nat.eq_zero_or_pos (Decimal.Binary.ofFloat x).significand with hzero | hpos
  · exact .inl ⟨_, unpack_of_significand_eq_zero hzero⟩
  · have hform := unpack_of_significand_pos (isFinite_of_isWeight hx) hpos
    have hnonneg := isNonneg_of_isWeight hx
    refine .inr ⟨hpos, ?_⟩
    rw [hform] at hnonneg ⊢
    cases hsign : signOf x with
    | positive => rfl
    | negative =>
        rw [hsign] at hnonneg
        exact hnonneg.elim

theorem isFinite_of_unpack_finite {s : Sign} {m : ℕ} {e : ℤ} {hm : 0 < m}
    (h : x.toModel.unpack = .finite s m e hm) : x.isFinite = true := by
  show x.toModel.unpack.isFinite = true
  rw [h]
  rfl

theorem isFinite_of_unpack_zero {s : Sign} (h : x.toModel.unpack = .zero s) :
    x.isFinite = true := by
  show x.toModel.unpack.isFinite = true
  rw [h]
  rfl

theorem magnitude_of_unpack_finite {s : Sign} {m : ℕ} {e : ℤ} {hm : 0 < m}
    (h : x.toModel.unpack = .finite s m e hm) : magnitude x = m * 2 ^ e := by
  rcases Nat.eq_zero_or_pos (Decimal.Binary.ofFloat x).significand with hzero | hpos
  · rw [unpack_of_significand_eq_zero hzero] at h
    cases h
  · rw [unpack_of_significand_pos (isFinite_of_unpack_finite h) hpos] at h
    injection h with _ hsignificand hexponent
    rw [magnitude, hsignificand, hexponent]

theorem magnitude_of_unpack_zero {s : Sign} (h : x.toModel.unpack = .zero s) :
    magnitude x = 0 := by
  rcases Nat.eq_zero_or_pos (Decimal.Binary.ofFloat x).significand with hzero | hpos
  · rw [magnitude, hzero, Nat.cast_zero, zero_mul]
  · rw [unpack_of_significand_pos (isFinite_of_unpack_zero h) hpos] at h
    cases h

theorem isWeight_of_unpack_zero {s : Sign} (h : x.toModel.unpack = .zero s) :
    isWeight x = true := by
  refine isWeight_iff.2 ⟨isFinite_of_unpack_zero h, ?_⟩
  rw [le_iff, zero_unpack, h]
  rfl

theorem isWeight_of_unpack_finite {m : ℕ} {e : ℤ} {hm : 0 < m}
    (h : x.toModel.unpack = .finite .positive m e hm) : isWeight x = true := by
  refine isWeight_iff.2 ⟨isFinite_of_unpack_finite h, ?_⟩
  rw [le_iff, zero_unpack, h]
  rfl

/-! ## Comparing weights -/

theorem compare_unpack (hx : isWeight x = true) (hy : isWeight y = true) :
    UnpackedFloat.compare x.toModel.unpack y.toModel.unpack =
      some (compare (magnitude x) (magnitude y)) := by
  have hpositive : ∀ {z : Float} {s : Sign} {m : ℕ} {e : ℤ} {hm : 0 < m},
      z.toModel.unpack = .finite s m e hm → 0 < magnitude z := by
    intro z s m e hm h
    rw [magnitude_of_unpack_finite h]
    positivity
  rcases unpack_of_isWeight hx with ⟨s, hs⟩ | ⟨_, hm⟩ <;>
    rcases unpack_of_isWeight hy with ⟨t, ht⟩ | ⟨_, hn⟩
  · rw [magnitude_of_unpack_zero hs, magnitude_of_unpack_zero ht, hs, ht,
      compare_eq_iff_eq.2 rfl]
    rfl
  · rw [magnitude_of_unpack_zero hs, compare_lt_iff_lt.2 (hpositive hn), hs, hn]
    rfl
  · rw [magnitude_of_unpack_zero ht, compare_gt_iff_gt.2 (hpositive hm), ht, hm]
    rfl
  · rw [hm, hn, magnitude, magnitude, ← IsCanonical.compare_eq
      (isCanonical_of_isWeight hx) (isCanonical_of_isWeight hy)]
    rfl

theorem lt_iff_magnitude (hx : isWeight x = true) (hy : isWeight y = true) :
    x < y ↔ magnitude x < magnitude y := by
  rw [lt_iff, UnpackedFloat.lt, compare_unpack hx hy, beq_iff_eq, Option.some.injEq,
    compare_lt_iff_lt]

theorem le_iff_magnitude (hx : isWeight x = true) (hy : isWeight y = true) :
    x ≤ y ↔ magnitude x ≤ magnitude y := by
  rw [le_iff, UnpackedFloat.le, compare_unpack hx hy, Option.any_some, ← compare_le_iff_le,
    Ordering.isLE_iff_ne_gt]

end Magnitude

end GrowthGrammar.Double
