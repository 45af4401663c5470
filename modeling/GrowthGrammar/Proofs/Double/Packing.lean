import GrowthGrammar.Decimal.Shortest
import Mathlib

/-!
# Doubles and their fields

A double is 64 bits: a sign, eleven bits of exponent and 52 bits of fraction. Unpacked it is a sign
with a significand and an exponent. The unpacked form of a finite double carries the magnitude that
`Decimal.Binary.ofFloat` reads off the bits (`unpack_of_significand_pos`), and packing an unpacked
form with room for its significand and exponent loses nothing (`unpack_pack_finite`).
-/

set_option autoImplicit false

namespace GrowthGrammar.Double

open Float.Model Float.Model.UnpackedFloat

/-- A power of a base with some whole powers of it taken out. -/
theorem zpow_eq_pow_mul {base : ℚ} (hbase : base ≠ 0) {s t : ℤ} {k : ℕ} (h : s = t + k) :
    base ^ s = base ^ k * base ^ t := by
  rw [h, zpow_add₀ hbase, zpow_natCast, mul_comm]

/-- A unit is four of the quarters in which intervals are measured. -/
theorem two_zpow_eq_quarters (e : ℤ) : (2 : ℚ) ^ e = 4 * 2 ^ (e - 2) := by
  rw [zpow_eq_pow_mul (k := 2) two_ne_zero (show e = e - 2 + 2 by ring)]
  norm_num

/-! ## Fields of a bit pattern -/

theorem toNat_append {m n : Nat} (x : BitVec m) (y : BitVec n) :
    (x ++ y).toNat = x.toNat * 2 ^ n + y.toNat := by
  rw [BitVec.toNat_append, ← Nat.shiftLeft_add_eq_or_of_lt y.isLt, Nat.shiftLeft_eq]

theorem toNat_unpackMantissa (b : BitVec 64) :
    (@unpackMantissa Format.binary64 b).toNat = b.toNat % 2 ^ 52 := by
  simp [unpackMantissa]

theorem toNat_unpackExponent (b : BitVec 64) :
    (@unpackExponent Format.binary64 b).toNat = b.toNat / 2 ^ 52 % 2 ^ 11 := by
  simp [unpackExponent, Nat.shiftRight_eq_div_pow]

theorem toNat_unpackSign (b : BitVec 64) :
    (@unpackSign Format.binary64 b).toNat = b.toNat / 2 ^ 63 := by
  have hb : b.toNat < 2 ^ 64 := b.isLt
  simp only [unpackSign, BitVec.toNat_cast, BitVec.extractLsb_toNat, Nat.shiftRight_eq_div_pow]
  show b.toNat / 2 ^ 63 % 2 = _
  omega

/-! ## Unpacking fields -/

section Fields

variable (s : Sign) {e : BitVec 11} {m : BitVec 52}

theorem unpack_packedInfinity :
    UnpackedFloat.unpack Format.binary64 (packedInfinity Format.binary64 s) = .infinity s := by
  simp only [packedInfinity, UnpackedFloat.unpack, unpackMantissa_packComponents,
    unpackExponent_packComponents, unpackSign_packComponents, Sign.ofBitVec_toBitVec]
  rfl

theorem unpack_subnormal (hm : 0 < m.toNat) :
    UnpackedFloat.unpack Format.binary64 (packComponents Format.binary64 s 0#11 m) =
      .finite s m.toNat (-1074) hm := by
  have hne : m ≠ 0#52 := by
    rintro rfl
    simp at hm
  simp only [UnpackedFloat.unpack, unpackMantissa_packComponents, unpackExponent_packComponents,
    unpackSign_packComponents, Sign.ofBitVec_toBitVec]
  rw [if_neg (by decide), if_pos trivial, dif_neg hne]
  rfl

theorem unpack_normal (he : e ≠ 0#11) (hmax : e ≠ -1#11) :
    UnpackedFloat.unpack Format.binary64 (packComponents Format.binary64 s e m) =
      .finite s (2 ^ 52 + m.toNat) ((e.toNat : Int) - 1075) (by omega) := by
  have hm : (1#1 ++ m).toNat = 2 ^ 52 + m.toNat := by
    rw [toNat_append]
    simp
  simp only [UnpackedFloat.unpack, unpackMantissa_packComponents, unpackExponent_packComponents,
    unpackSign_packComponents, Sign.ofBitVec_toBitVec]
  rw [if_neg hmax, if_neg he]
  simp only [hm]
  rfl

end Fields

/-! ## Canonical forms -/

/-- The significands and exponents of finite doubles: 53 bits, all of them used unless the exponent
is the least one. -/
structure IsCanonical (m : Nat) (e : Int) : Prop where
  lt : m < 2 ^ 53
  min_le : -1074 ≤ e
  le_max : e ≤ 971
  full : 2 ^ 52 ≤ m ∨ e = -1074

/-- The same without a greatest exponent: beyond it a significand is packed as an infinity. -/
structure IsAligned (m : Nat) (e : Int) : Prop where
  lt : m < 2 ^ 53
  min_le : -1074 ≤ e
  full : 2 ^ 52 ≤ m ∨ e = -1074

theorem IsCanonical.isAligned {m : Nat} {e : Int} (h : IsCanonical m e) : IsAligned m e :=
  ⟨h.lt, h.min_le, h.full⟩

theorem IsAligned.isCanonical {m : Nat} {e : Int} (h : IsAligned m e) (hmax : e ≤ 971) :
    IsCanonical m e :=
  ⟨h.lt, h.min_le, hmax, h.full⟩

theorem log2_eq_of_full {m : Nat} (hlt : m < 2 ^ 53) (hfull : 2 ^ 52 ≤ m) : m.log2 = 52 :=
  (Nat.log2_eq_iff (by omega)).2 ⟨hfull, hlt⟩

/-- A full significand is packed without its leading bit. -/
theorem pack_normal (s : Sign) {m : Nat} {e : Int} (hm : 0 < m) (h : IsCanonical m e)
    (hfull : 2 ^ 52 ≤ m) :
    UnpackedFloat.pack Format.binary64 (.finite s m e hm) =
      packComponents Format.binary64 s (BitVec.ofNat 11 (e + 1075).toNat) (BitVec.ofNat 52 m) := by
  obtain ⟨hlt, hmin, hmax, -⟩ := h
  have hbias : (e + Format.binary64.exponentBias
      + Format.binary64.mantissaBitsWithoutImplicit).toNat = (e + 1075).toNat := by
    show (e + (1023 : Nat) + (52 : Nat)).toNat = _
    omega
  have hbits : Format.binary64.mantissaBits = 53 := rfl
  unfold UnpackedFloat.pack
  simp only [hbias, hbits]
  rw [if_neg (show ¬2 ^ 11 ≤ (e + 1075).toNat + 1 by omega),
    if_pos (show m.log2 + 1 = 53 by rw [log2_eq_of_full hlt hfull])]

/-- A significand that is not full is packed under the exponent field zero. -/
theorem pack_subnormal (s : Sign) {m : Nat} (hm : 0 < m) (hlt : m < 2 ^ 52) :
    UnpackedFloat.pack Format.binary64 (.finite s m (-1074) hm) =
      packComponents Format.binary64 s 0#11 (BitVec.ofNat 52 m) := by
  have hlog : m.log2 < 52 := (Nat.log2_lt (by omega)).2 hlt
  have hbits : Format.binary64.mantissaBits = 53 := rfl
  unfold UnpackedFloat.pack
  simp only [hbits]
  rw [if_neg (by decide), if_neg (show ¬m.log2 + 1 = 53 by omega)]

/-- Packing a canonical form and unpacking it again loses nothing. -/
theorem unpack_pack_finite (s : Sign) {m : Nat} {e : Int} (hm : 0 < m) (h : IsCanonical m e) :
    (Float.Model.pack (.finite s m e hm)).unpack = .finite s m e hm := by
  show UnpackedFloat.unpack Format.binary64 (UnpackedFloat.pack Format.binary64 _) = _
  by_cases hnormal : 2 ^ 52 ≤ m
  · rw [pack_normal s hm h hnormal]
    obtain ⟨hlt, hmin, hmax, -⟩ := h
    have hexp : (BitVec.ofNat 11 (e + 1075).toNat).toNat = (e + 1075).toNat := by
      rw [BitVec.toNat_ofNat]
      omega
    have hfraction : 2 ^ 52 + (BitVec.ofNat 52 m).toNat = m := by
      rw [BitVec.toNat_ofNat]
      omega
    have hne : ∀ k : BitVec 11, k.toNat = 0 ∨ k.toNat = 2047 →
        BitVec.ofNat 11 (e + 1075).toNat ≠ k := by
      rintro k hk rfl
      rw [hexp] at hk
      omega
    rw [unpack_normal s (hne _ (.inl rfl)) (hne _ (.inr rfl))]
    congr 1
    rw [hexp]
    omega
  · obtain ⟨hlt, hmin, hmax, hfull⟩ := h
    have hfraction : (BitVec.ofNat 52 m).toNat = m := by
      rw [BitVec.toNat_ofNat]
      omega
    obtain rfl : e = -1074 := hfull.resolve_left hnormal
    rw [pack_subnormal s hm (by omega), unpack_subnormal s (by omega)]
    congr 1

/-! ## Finite doubles -/

/-- The sign of a double, also of a zero. -/
def signOf (x : Float) : Sign :=
  if Decimal.isNegative x then .negative else .positive

theorem signOf_eq (x : Float) :
    signOf x = Sign.ofBitVec (@unpackSign Format.binary64 x.toBits.toBitVec) := by
  have hlt : x.toBits.toBitVec.toNat < 2 ^ 64 := x.toBits.toBitVec.isLt
  have hbit := toNat_unpackSign x.toBits.toBitVec
  have hnum : x.toBits.toNat = x.toBits.toBitVec.toNat := rfl
  unfold signOf Decimal.isNegative Sign.ofBitVec
  simp only [hnum, Nat.pow_eq, decide_eq_true_eq]
  by_cases hneg : x.toBits.toBitVec.toNat / 2 ^ 63 = 1
  · have hne : @unpackSign Format.binary64 x.toBits.toBitVec ≠ 0#1 := by
      intro heq
      rw [heq] at hbit
      simp at hbit
      omega
    rw [if_pos hneg, if_neg hne]
  · have heq : @unpackSign Format.binary64 x.toBits.toBitVec = 0#1 := by
      apply BitVec.eq_of_toNat_eq
      rw [hbit]
      simp
      omega
    rw [if_neg hneg, if_pos heq]

section Finite

variable {x : Float}

/-- The exponent field of a finite double is not all ones. -/
theorem field_ne_of_isFinite (hx : x.isFinite = true) :
    x.toBits.toNat / 2 ^ 52 % 2 ^ 11 ≠ 2047 := by
  intro hfield
  have hexp : @unpackExponent Format.binary64 x.toBits.toBitVec = -1#11 :=
    BitVec.eq_of_toNat_eq ((toNat_unpackExponent _).trans hfield)
  have hfinite : (UnpackedFloat.unpack Format.binary64 x.toBits.toBitVec).isFinite = true := hx
  rw [UnpackedFloat.unpack, if_pos hexp] at hfinite
  split at hfinite <;> cases hfinite

/-- The magnitude of a subnormal double is its mantissa. -/
theorem ofFloat_of_field_eq_zero (hfield : x.toBits.toNat / 2 ^ 52 % 2 ^ 11 = 0) :
    Decimal.Binary.ofFloat x = ⟨x.toBits.toNat % 2 ^ 52, -1074⟩ := by
  unfold Decimal.Binary.ofFloat
  simp only [Nat.pow_eq]
  rw [if_pos hfield]

/-- The magnitude of a normal double is its mantissa behind the hidden bit. -/
theorem ofFloat_of_field_ne_zero (hfield : x.toBits.toNat / 2 ^ 52 % 2 ^ 11 ≠ 0) :
    Decimal.Binary.ofFloat x =
      ⟨2 ^ 52 + x.toBits.toNat % 2 ^ 52,
        ((x.toBits.toNat / 2 ^ 52 % 2 ^ 11 : Nat) : Int) - 1075⟩ := by
  unfold Decimal.Binary.ofFloat
  simp only [Nat.pow_eq]
  rw [if_neg hfield]

/-- The magnitude of a finite double is canonical. -/
theorem isCanonical_ofFloat (hx : x.isFinite = true) :
    IsCanonical (Decimal.Binary.ofFloat x).significand (Decimal.Binary.ofFloat x).exponent := by
  have hmax := field_ne_of_isFinite hx
  by_cases hfield : x.toBits.toNat / 2 ^ 52 % 2 ^ 11 = 0
  · rw [ofFloat_of_field_eq_zero hfield]
    exact ⟨by dsimp only; omega, by dsimp only; omega, by dsimp only; omega, .inr rfl⟩
  · rw [ofFloat_of_field_ne_zero hfield]
    refine ⟨?_, ?_, ?_, .inl ?_⟩
    all_goals dsimp only; omega

/-- A double is unpacked from its sign and the two other fields of its bits. -/
theorem unpack_eq_unpack_packComponents (x : Float) :
    x.toModel.unpack = UnpackedFloat.unpack Format.binary64
      (packComponents Format.binary64 (signOf x)
        (@unpackExponent Format.binary64 x.toBits.toBitVec)
        (@unpackMantissa Format.binary64 x.toBits.toBitVec)) := by
  rw [signOf_eq, packComponents_unpackSign_unpackExponent_unpackMantissa]
  rfl

/-- A finite double of magnitude zero has an empty exponent field and an empty mantissa. -/
theorem fields_of_significand_eq_zero (hzero : (Decimal.Binary.ofFloat x).significand = 0) :
    x.toBits.toNat / 2 ^ 52 % 2 ^ 11 = 0 ∧ x.toBits.toNat % 2 ^ 52 = 0 := by
  by_cases hfield : x.toBits.toNat / 2 ^ 52 % 2 ^ 11 = 0
  · rw [ofFloat_of_field_eq_zero hfield] at hzero
    exact ⟨hfield, hzero⟩
  · rw [ofFloat_of_field_ne_zero hfield] at hzero
    dsimp only at hzero
    omega

/-- A finite double of magnitude zero unpacks to a signed zero. -/
theorem unpack_of_significand_eq_zero (hzero : (Decimal.Binary.ofFloat x).significand = 0) :
    x.toModel.unpack = .zero (signOf x) := by
  have hfields := fields_of_significand_eq_zero hzero
  have hexp : @unpackExponent Format.binary64 x.toBits.toBitVec = 0#11 :=
    BitVec.eq_of_toNat_eq ((toNat_unpackExponent _).trans hfields.1)
  have hfraction : @unpackMantissa Format.binary64 x.toBits.toBitVec = 0#52 :=
    BitVec.eq_of_toNat_eq ((toNat_unpackMantissa _).trans hfields.2)
  rw [unpack_eq_unpack_packComponents, hexp, hfraction]
  exact unpack_packedZero

/-- Any other finite double unpacks to its magnitude. -/
theorem unpack_of_significand_pos (hx : x.isFinite = true)
    (hpos : 0 < (Decimal.Binary.ofFloat x).significand) :
    x.toModel.unpack =
      .finite (signOf x) (Decimal.Binary.ofFloat x).significand
        (Decimal.Binary.ofFloat x).exponent hpos := by
  have hmax := field_ne_of_isFinite hx
  have hexp : (@unpackExponent Format.binary64 x.toBits.toBitVec).toNat =
      x.toBits.toNat / 2 ^ 52 % 2 ^ 11 := toNat_unpackExponent x.toBits.toBitVec
  have hfraction : (@unpackMantissa Format.binary64 x.toBits.toBitVec).toNat =
      x.toBits.toNat % 2 ^ 52 := toNat_unpackMantissa x.toBits.toBitVec
  rw [unpack_eq_unpack_packComponents]
  by_cases hfield : x.toBits.toNat / 2 ^ 52 % 2 ^ 11 = 0
  · have hof := ofFloat_of_field_eq_zero hfield
    have hzero : @unpackExponent Format.binary64 x.toBits.toBitVec = 0#11 :=
      BitVec.eq_of_toNat_eq (hexp.trans hfield)
    have hm : 0 < (@unpackMantissa Format.binary64 x.toBits.toBitVec).toNat := by
      rw [hfraction]
      rwa [hof] at hpos
    rw [hzero, unpack_subnormal _ hm]
    simp only [hof, hfraction]
  · have hof := ofFloat_of_field_ne_zero hfield
    have hne : ∀ k : BitVec 11, k.toNat = 0 ∨ k.toNat = 2047 →
        @unpackExponent Format.binary64 x.toBits.toBitVec ≠ k := by
      rintro k hk rfl
      rw [hexp] at hk
      omega
    rw [unpack_normal _ (hne _ (.inl rfl)) (hne _ (.inr rfl))]
    simp only [hof, hfraction, hexp]

end Finite

end GrowthGrammar.Double
