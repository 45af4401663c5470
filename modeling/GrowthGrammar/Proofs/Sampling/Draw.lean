import GrowthGrammar.Proofs.Double.Bits
import GrowthGrammar.Proofs.Double.Monotone

/-!
# Where a draw lies

A draw for a positive total is a weight below the total, whatever the seed (`draw_lt`). The fraction
that is scaled is exact and at most `1 - 2 ^ -52`. Scaling rounds, and it might round up to the total;
where the greatest fraction would, the scale is the double before the total, and no fraction lifts it
above itself.
-/

set_option autoImplicit false

namespace GrowthGrammar.Sampler

open Float.Model Float.Model.UnpackedFloat
open Double

/-! ## Fractions -/

/-- The bits behind the point of a fraction. -/
def fractionBits (bits : UInt64) : ℕ :=
  bits.toNat / 2 ^ 12

theorem fractionBits_lt (bits : UInt64) : fractionBits bits < 2 ^ 52 := by
  have hlt : bits.toNat < 2 ^ 64 := bits.toNat_lt
  unfold fractionBits
  omega

theorem toNat_fraction (bits : UInt64) :
    ((bits >>> 12) ||| 0x3FF0000000000000).toNat = 1023 * 2 ^ 52 + fractionBits bits := by
  have hshift : (bits >>> 12).toNat = fractionBits bits := by
    rw [UInt64.toNat_shiftRight]
    show bits.toNat >>> 12 = _
    rw [Nat.shiftRight_eq_div_pow]
    rfl
  rw [UInt64.toNat_or, hshift]
  show fractionBits bits ||| 1023 * 2 ^ 52 = _
  rw [Nat.lor_comm, ← Nat.shiftLeft_eq, ← Nat.shiftLeft_add_eq_or_of_lt (fractionBits_lt bits)]

/-- Behind the bits of one the fraction is added to one. -/
theorem unpack_fraction (bits : UInt64) :
    ∃ hm, (Float.ofBits ((bits >>> 12) ||| 0x3FF0000000000000)).toModel.unpack =
      .finite .positive (2 ^ 52 + fractionBits bits) (-52) hm := by
  have hlt := fractionBits_lt bits
  have hbits : (Float.ofBits ((bits >>> 12) ||| 0x3FF0000000000000)).toBits.toNat =
      1023 * 2 ^ 52 + fractionBits bits := by
    rw [toBits_ofBits (by rw [toNat_fraction]; omega), toNat_fraction]
  exact unpack_of_toBits (by norm_num) (by norm_num) hlt hbits

theorem one_unpack : ∃ hm, (1 : Float).toModel.unpack = .finite .positive (2 ^ 52) (-52) hm :=
  ⟨by norm_num, rfl⟩

theorem difference_eq (x y : Float) : x - y =
    .ofModel (.pack (UnpackedFloat.sub Format.binary64 x.toModel.unpack y.toModel.unpack)) :=
  rfl

/-- Taking one away leaves the fraction, and nothing is lost to rounding. -/
theorem isRounded_unitFraction (bits : UInt64) :
    IsRounded (fractionBits bits * 2 ^ (-52 : ℤ)) (unitFraction bits) := by
  obtain ⟨hm, hform⟩ := unpack_fraction bits
  obtain ⟨hn, hone⟩ := one_unpack
  rw [unitFraction, difference_eq, hform, hone]
  have hmantissa : ((2 ^ 52 + fractionBits bits : ℕ) : ℤ) - (2 ^ 52 : ℕ) = fractionBits bits := by
    push_cast
    ring
  simp only [UnpackedFloat.sub, decreaseExponent, Int.min_self, Int.sub_self, Int.toNat_zero,
    Nat.shiftLeft_zero, Sign.apply, hmantissa, UnpackedFloat.normalize]
  rcases Nat.eq_zero_or_pos (fractionBits bits) with hzero | hpos
  · rw [hzero, Nat.cast_zero, zero_mul]
    exact isRounded_of_isZero (isZero_ofModel_pack _)
  · rw [show compare ((fractionBits bits : ℕ) : ℤ) 0 = .gt from
      Int.compare_eq_gt.2 (by exact_mod_cast hpos)]
    exact isRounded_round hpos (-52)

theorem isWeight_greatestFraction : isWeight greatestFraction = true := by
  decide +kernel

theorem magnitude_greatestFraction :
    magnitude greatestFraction = ((2 ^ 52 - 1 : ℕ) : ℚ) * 2 ^ (-52 : ℤ) := by
  have hof : Decimal.Binary.ofFloat greatestFraction = ⟨2 ^ 53 - 2, -53⟩ := by
    decide +kernel
  rw [magnitude, hof]
  norm_num

/-- No fraction is greater than the greatest. -/
theorem unitFraction_le (bits : UInt64) :
    isWeight (unitFraction bits) = true ∧
      magnitude (unitFraction bits) ≤ magnitude greatestFraction := by
  have hgreatest := isRounded_magnitude isWeight_greatestFraction
  refine (isRounded_unitFraction bits).magnitude_le hgreatest ?_
    (isFinite_of_isWeight isWeight_greatestFraction)
  rw [magnitude_greatestFraction]
  have hle : fractionBits bits ≤ 2 ^ 52 - 1 := Nat.le_sub_one_of_lt (fractionBits_lt bits)
  exact mul_le_mul_of_nonneg_right (by exact_mod_cast hle) (by positivity)

theorem greatestFraction_le_one : magnitude greatestFraction ≤ 1 := by
  rw [magnitude_greatestFraction]
  norm_num

/-! ## Draws -/

/-- **Draws.** For every seed and every positive total the draw is a weight below the total. -/
theorem draw_lt (seed : String) {total : Float} (htotal : isWeight total = true)
    (hpos : 0 < magnitude total) :
    isWeight (draw seed total) = true ∧ magnitude (draw seed total) < magnitude total := by
  obtain ⟨hfraction, hle⟩ := unitFraction_le (ChaCha.firstBits (seedHash seed))
  unfold draw drawScale
  split
  · next hscaled =>
    have hgreatest := isRounded_mul htotal isWeight_greatestFraction
    obtain ⟨hweight, -⟩ := hgreatest.magnitude_le (isRounded_magnitude htotal)
      (mul_le_of_le_one_right (magnitude_nonneg total) greatestFraction_le_one)
      (isFinite_of_isWeight htotal)
    obtain ⟨hdraw, hdrawle⟩ := (isRounded_mul hfraction htotal).magnitude_le hgreatest
      (by rw [mul_comm]; exact mul_le_mul_of_nonneg_left hle (magnitude_nonneg total))
      (isFinite_of_isWeight hweight)
    exact ⟨hdraw, hdrawle.trans_lt ((lt_iff_magnitude hweight htotal).1 hscaled)⟩
  · obtain ⟨hbefore, hlt⟩ := before_lt htotal hpos
    obtain ⟨hdraw, hdrawle⟩ := product_le_right hfraction hbefore
      (hle.trans greatestFraction_le_one)
    exact ⟨hdraw, hdrawle.trans_lt hlt⟩

end GrowthGrammar.Sampler
