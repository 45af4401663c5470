import GrowthGrammar.Proofs.Double.Order

/-!
# Weights by their bits

The bits of a weight, read as a whole number, grow with its magnitude. The number before the bits of a
positive weight are the bits of a smaller weight (`before_lt`).
-/

set_option autoImplicit false

namespace GrowthGrammar.Double

open Float.Model Float.Model.UnpackedFloat

/-- The bits of the least infinity, above those of all positive finite doubles. -/
def infinityBits : ℕ := 2047 * 2 ^ 52

section Bits

variable {x : Float} {c : UInt64}

/-- A double keeps its bits unless they are those of a NaN. -/
theorem toBits_ofBits (hc : c.toNat / 2 ^ 52 % 2 ^ 11 ≠ 2047) : (Float.ofBits c).toBits = c := by
  have hvalid : Format.binary64.Valid c.toBitVec := by
    refine ⟨fun hones _ => absurd ?_ hc⟩
    have hnat := toNat_unpackExponent c.toBitVec
    rw [hones] at hnat
    exact hnat.symm
  have heq : Float.ofBits c = .ofModel ⟨c, hvalid⟩ := ofModel_pack_unpack (.ofModel ⟨c, hvalid⟩)
  rw [heq]
  rfl

theorem isFinite_of_field_ne (hx : x.toBits.toNat / 2 ^ 52 % 2 ^ 11 ≠ 2047) :
    x.isFinite = true := by
  have hexp : @unpackExponent Format.binary64 x.toBits.toBitVec ≠ -1#11 := by
    intro hones
    have hnat := toNat_unpackExponent x.toBits.toBitVec
    rw [hones] at hnat
    exact hx hnat.symm
  show (UnpackedFloat.unpack Format.binary64 x.toBits.toBitVec).isFinite = true
  unfold UnpackedFloat.unpack
  dsimp only
  rw [if_neg hexp]
  split
  · split <;> rfl
  · rfl

theorem signOf_of_toBits_lt (hx : x.toBits.toNat < 2 ^ 63) : signOf x = .positive := by
  unfold signOf Decimal.isNegative
  rw [if_neg]
  simp only [Nat.pow_eq, decide_eq_true_eq]
  omega

/-- Bits below those of the infinity are the bits of a weight. -/
theorem isWeight_of_toBits_lt (hx : x.toBits.toNat < infinityBits) : isWeight x = true := by
  unfold infinityBits at hx
  have hfinite : x.isFinite = true := isFinite_of_field_ne (by omega)
  rcases Nat.eq_zero_or_pos (Decimal.Binary.ofFloat x).significand with hzero | hpos
  · exact isWeight_of_unpack_zero (unpack_of_significand_eq_zero hzero)
  · have hform := unpack_of_significand_pos hfinite hpos
    rw [signOf_of_toBits_lt (by omega)] at hform
    exact isWeight_of_unpack_finite hform

/-- The significand and the exponent of a normal positive double, from its bits. -/
theorem unpack_of_toBits {m : ℕ} {field : ℕ} (hfield : 0 < field) (hmax : field < 2047)
    (hm : m < 2 ^ 52) (hx : x.toBits.toNat = field * 2 ^ 52 + m) :
    ∃ hpos, x.toModel.unpack = .finite .positive (2 ^ 52 + m) ((field : ℤ) - 1075) hpos := by
  have hof : Decimal.Binary.ofFloat x = ⟨2 ^ 52 + m, (field : ℤ) - 1075⟩ := by
    rw [ofFloat_of_field_ne_zero (by omega), hx]
    congr 1 <;> omega
  have hform := unpack_of_significand_pos (x := x) (isFinite_of_field_ne (by omega))
    (by rw [hof]; dsimp only; omega)
  rw [signOf_of_toBits_lt (by omega)] at hform
  simp only [hof] at hform
  exact ⟨_, hform⟩

/-- The bits of a positive weight are below those of the infinity. -/
theorem toBits_lt_of_isWeight (hx : isWeight x = true) (hpos : 0 < magnitude x) :
    0 < x.toBits.toNat ∧ x.toBits.toNat < infinityBits := by
  have hfinite := isFinite_of_isWeight hx
  have hfield := field_ne_of_isFinite hfinite
  have hlt : x.toBits.toNat < 2 ^ 64 := x.toBits.toNat_lt
  have hsign : ¬x.toBits.toNat / 2 ^ 63 = 1 := by
    intro hneg
    rcases unpack_of_isWeight hx with ⟨s, hs⟩ | ⟨hm, hform⟩
    · rw [magnitude_of_unpack_zero hs] at hpos
      exact lt_irrefl _ hpos
    · rw [unpack_of_significand_pos hfinite hm] at hform
      injection hform with hsign
      unfold signOf Decimal.isNegative at hsign
      rw [if_pos (by simpa using hneg)] at hsign
      cases hsign
  refine ⟨?_, ?_⟩
  · by_contra hzero
    have hbits : x.toBits.toNat = 0 := by omega
    rw [magnitude, ofFloat_of_field_eq_zero (by omega), hbits] at hpos
    simp at hpos
  · unfold infinityBits
    omega

/-- Where the exponent is smaller, or the significand at the same exponent, so is the magnitude. -/
theorem magnitude_lt_of_lex {y : Float} (hx : x.isFinite = true) (hy : y.isFinite = true)
    (hlex : (Decimal.Binary.ofFloat x).exponent < (Decimal.Binary.ofFloat y).exponent ∨
      (Decimal.Binary.ofFloat x).exponent = (Decimal.Binary.ofFloat y).exponent ∧
        (Decimal.Binary.ofFloat x).significand < (Decimal.Binary.ofFloat y).significand) :
    magnitude x < magnitude y := by
  rcases hlex with hexponent | ⟨hexponent, hsignificand⟩
  · exact (isCanonical_ofFloat hx).value_lt (isCanonical_ofFloat hy) hexponent
  · rw [magnitude, magnitude, hexponent]
    exact mul_lt_mul_of_pos_right (by exact_mod_cast hsignificand) (by positivity)

/-- One less in the bits of a weight is less in its magnitude. -/
theorem magnitude_lt_of_succ {y : Float} (hy : y.toBits.toNat < infinityBits)
    (hnext : x.toBits.toNat + 1 = y.toBits.toNat) : magnitude x < magnitude y := by
  unfold infinityBits at hy
  refine magnitude_lt_of_lex (isFinite_of_field_ne (by omega)) (isFinite_of_field_ne (by omega)) ?_
  by_cases hyfield : y.toBits.toNat / 2 ^ 52 % 2 ^ 11 = 0
  · rw [ofFloat_of_field_eq_zero hyfield, ofFloat_of_field_eq_zero (by omega)]
    dsimp only
    omega
  · rw [ofFloat_of_field_ne_zero hyfield]
    -- the hidden bit may go, but the exponent stays where it does
    by_cases hxfield : x.toBits.toNat / 2 ^ 52 % 2 ^ 11 = 0
    · rw [ofFloat_of_field_eq_zero hxfield]
      dsimp only
      omega
    · rw [ofFloat_of_field_ne_zero hxfield]
      dsimp only
      omega

/-- The double before a positive weight is a smaller weight. -/
theorem before_lt (hx : isWeight x = true) (hpos : 0 < magnitude x) :
    isWeight (Float.ofBits (x.toBits - 1)) = true ∧
      magnitude (Float.ofBits (x.toBits - 1)) < magnitude x := by
  obtain ⟨hbits, hmax⟩ := toBits_lt_of_isWeight hx hpos
  have hnat : (x.toBits - 1).toNat = x.toBits.toNat - 1 := by
    have hle : (1 : UInt64) ≤ x.toBits := UInt64.le_iff_toNat_le.2 hbits
    exact UInt64.toNat_sub_of_le _ _ hle
  have hsame : (Float.ofBits (x.toBits - 1)).toBits = x.toBits - 1 := by
    refine toBits_ofBits ?_
    unfold infinityBits at hmax
    rw [hnat]
    omega
  refine ⟨isWeight_of_toBits_lt ?_, magnitude_lt_of_succ hmax ?_⟩
  · rw [hsame, hnat]
    omega
  · rw [hsame, hnat]
    omega

end Bits

end GrowthGrammar.Double
