import GrowthGrammar.Proofs.Double.Packing
import GrowthGrammar.Sampling.Sampler

/-!
# Sums of weights

A sum of weights is never NaN and never below zero, however it is rounded and wherever it
overflows. So a sum that is not at most zero is above zero (`pos_of_not_le_zero`), which is not true
of all doubles.

A sum is the same whether it begins with zero or with its first weight, up to the sign of a zero
(`agree_foldl_cons`).
-/

set_option autoImplicit false

namespace GrowthGrammar.Double

open Float.Model Float.Model.UnpackedFloat

/-! ## Unpacked doubles -/

/-- Neither NaN nor below zero. The negative zero counts: it is not below zero. -/
def IsNonneg : UnpackedFloat → Prop
  | .infinity .positive => True
  | .zero _ => True
  | .finite .positive .. => True
  | _ => False

theorem isNonneg_roundWithAccuracy (spec : Float.Model.Format) (m : Nat) (e : Int)
    (accuracy : Accuracy) : IsNonneg (roundWithAccuracy spec .positive m e accuracy) := by
  unfold roundWithAccuracy
  dsimp only
  split <;> trivial

/-- Adding keeps away from NaN and from the negatives, one case for each pair of forms. -/
theorem isNonneg_add {spec : Float.Model.Format} {u v : UnpackedFloat} (hu : IsNonneg u)
    (hv : IsNonneg v) : IsNonneg (UnpackedFloat.add spec u v) := by
  match u, v, hu, hv with
  | .infinity .positive, .infinity .positive, _, _ => trivial
  | .infinity .positive, .zero _, _, _ => trivial
  | .infinity .positive, .finite .positive .., _, _ => trivial
  | .zero _, .infinity .positive, _, _ => trivial
  | .finite .positive .., .infinity .positive, _, _ => trivial
  | .zero s, .zero t, _, _ =>
      show IsNonneg (if s == t then .zero s else .zero .positive)
      split <;> trivial
  | .zero _, .finite .positive .., _, _ => trivial
  | .finite .positive .., .zero _, _, _ => trivial
  | .finite .positive m e hm, .finite .positive n f hn, _, _ =>
      simp only [UnpackedFloat.add, UnpackedFloat.normalize]
      split
      · next hneg =>
        -- the sum of two magnitudes is not below zero
        have hlt := Int.compare_eq_lt.1 hneg
        simp only [Sign.apply] at hlt
        omega
      · trivial
      · exact isNonneg_roundWithAccuracy _ _ _ _

/-! ## Packed doubles -/

theorem isNonneg_unpack_packComponents {e : BitVec 11} (m : BitVec 52) (he : e ≠ -1#11) :
    IsNonneg (UnpackedFloat.unpack Format.binary64
      (packComponents Format.binary64 .positive e m)) := by
  have hsign : Sign.ofBitVec (unpackSign (packComponents Format.binary64 .positive e m)) =
      .positive := by
    rw [unpackSign_packComponents, Sign.ofBitVec_toBitVec]
  unfold UnpackedFloat.unpack
  simp only [hsign, unpackMantissa_packComponents, unpackExponent_packComponents]
  rw [if_neg he]
  split
  · split <;> trivial
  · trivial

theorem isNonneg_unpack_pack {u : UnpackedFloat} (hu : IsNonneg u) :
    IsNonneg (Float.Model.pack u).unpack := by
  show IsNonneg (UnpackedFloat.unpack Format.binary64 (UnpackedFloat.pack Format.binary64 u))
  have hinfinity : IsNonneg (UnpackedFloat.unpack Format.binary64
      (packedInfinity Format.binary64 .positive)) := by
    rw [unpack_packedInfinity]
    trivial
  match u, hu with
  | .infinity .positive, _ => exact hinfinity
  | .zero s, _ =>
      rw [UnpackedFloat.pack, unpack_packedZero]
      trivial
  | .finite .positive m e hm, _ =>
      unfold UnpackedFloat.pack
      dsimp only
      split
      · exact hinfinity
      · next hsmall =>
        split
        · refine isNonneg_unpack_packComponents _ ?_
          intro hones
          have hnat : (e + Format.binary64.exponentBias + (52 : Nat)).toNat % 2 ^ 11 = 2047 :=
            congrArg BitVec.toNat hones
          omega
        · exact isNonneg_unpack_packComponents _ (by decide)

theorem isNonneg_sum {x y : Float} (hx : IsNonneg x.toModel.unpack)
    (hy : IsNonneg y.toModel.unpack) : IsNonneg (x + y).toModel.unpack := by
  have hsum : (x + y).toModel =
      .pack (UnpackedFloat.add Format.binary64 x.toModel.unpack y.toModel.unpack) := rfl
  rw [hsum]
  exact isNonneg_unpack_pack (isNonneg_add hx hy)

/-! ## Weights -/

theorem zero_unpack : (0 : Float).toModel.unpack = .zero .positive := rfl

theorem lt_iff {x y : Float} : x < y ↔ x.toModel.unpack.lt y.toModel.unpack = true := by
  show decide (x.toModel < y.toModel) = true ↔ _
  rw [decide_eq_true_iff]
  rfl

theorem le_iff {x y : Float} : x ≤ y ↔ x.toModel.unpack.le y.toModel.unpack = true := by
  show decide (x.toModel ≤ y.toModel) = true ↔ _
  rw [decide_eq_true_iff]
  rfl

/-- A weight is finite and at least zero. -/
theorem isWeight_iff {weight : Float} :
    isWeight weight = true ↔ weight.isFinite = true ∧ 0 ≤ weight := by
  have hfinite : weight.isFinite = weight.toModel.unpack.isFinite := rfl
  simp only [isWeight, Bool.and_eq_true, Bool.not_eq_true', decide_eq_false_iff_not, lt_iff,
    le_iff, zero_unpack, hfinite]
  cases weight.toModel.unpack with
  | notANumber => simp [UnpackedFloat.isFinite]
  | infinity s => simp [UnpackedFloat.isFinite]
  | zero s =>
      simp [UnpackedFloat.isFinite, UnpackedFloat.lt, UnpackedFloat.le, UnpackedFloat.compare]
  | finite s m e hm =>
      cases s <;>
        simp [UnpackedFloat.isFinite, UnpackedFloat.lt, UnpackedFloat.le, UnpackedFloat.compare]

theorem isFinite_of_isWeight {weight : Float} (h : isWeight weight = true) :
    weight.isFinite = true :=
  (isWeight_iff.1 h).1

theorem isNonneg_of_isWeight {weight : Float} (h : isWeight weight = true) :
    IsNonneg weight.toModel.unpack := by
  have hle := le_iff.1 (isWeight_iff.1 h).2
  have hfinite : weight.toModel.unpack.isFinite = true := isFinite_of_isWeight h
  rw [zero_unpack] at hle
  cases hu : weight.toModel.unpack with
  | notANumber => rw [hu] at hfinite; cases hfinite
  | infinity s => rw [hu] at hfinite; cases hfinite
  | zero s => trivial
  | finite s m e hm =>
      cases s with
      | positive => trivial
      | negative => rw [hu] at hle; cases hle

/-- What is neither NaN nor below zero and not at most zero is above zero. -/
theorem pos_of_not_le_zero {x : Float} (hx : IsNonneg x.toModel.unpack) (h : ¬x ≤ 0) : 0 < x := by
  rw [le_iff, zero_unpack] at h
  rw [lt_iff, zero_unpack]
  match x.toModel.unpack, hx, h with
  | .infinity .positive, _, _ => rfl
  | .zero _, _, h => exact absurd rfl h
  | .finite .positive m e hm, _, _ => rfl

/-- What is above zero is not at most zero. -/
theorem not_le_zero_of_pos {x : Float} (h : 0 < x) : ¬x ≤ 0 := by
  rw [lt_iff, zero_unpack] at h
  rw [le_iff, zero_unpack]
  match x.toModel.unpack, h with
  | .infinity .positive, _ => decide
  | .finite .positive m e hm, _ => simp [UnpackedFloat.le, UnpackedFloat.compare]

/-! ## Where a sum begins -/

/-- Whether a double is one of the two zeros. -/
def IsZero (x : Float) : Prop :=
  ∃ s, x.toModel.unpack = .zero s

/-- The same double, or two zeros. -/
def Agree (x y : Float) : Prop :=
  x = y ∨ IsZero x ∧ IsZero y

theorem Agree.symm {x y : Float} (h : Agree x y) : Agree y x :=
  h.imp Eq.symm And.symm

theorem Agree.trans {x y z : Float} (hxy : Agree x y) (hyz : Agree y z) : Agree x z := by
  rcases hxy with rfl | ⟨hx, hy⟩
  · exact hyz
  · rcases hyz with rfl | ⟨-, hz⟩
    · exact .inr ⟨hx, hy⟩
    · exact .inr ⟨hx, hz⟩

theorem add_eq (x y : Float) : x + y =
    .ofModel (.pack (UnpackedFloat.add Format.binary64 x.toModel.unpack y.toModel.unpack)) :=
  rfl

/-- Unpacking a double and packing it again loses nothing. -/
theorem ofModel_pack_unpack (x : Float) : Float.ofModel (.pack x.toModel.unpack) = x :=
  Float.ofBits_toBits x

theorem isZero_ofModel_pack (s : Sign) : IsZero (.ofModel (.pack (.zero s))) := by
  refine ⟨s, ?_⟩
  show UnpackedFloat.unpack Format.binary64 (UnpackedFloat.pack Format.binary64 _) = _
  rw [UnpackedFloat.pack, unpack_packedZero]

/-- What is added to a zero stays as it is, up to the sign of a zero. -/
theorem agree_add_of_isZero {x : Float} (hx : IsZero x) (y : Float) : Agree (x + y) y := by
  obtain ⟨s, hs⟩ := hx
  rw [add_eq, hs]
  cases hy : y.toModel.unpack with
  | zero t =>
      refine .inr ⟨?_, t, hy⟩
      unfold UnpackedFloat.add
      dsimp only
      split <;> exact isZero_ofModel_pack _
  | _ =>
      refine .inl ?_
      conv_rhs => rw [← ofModel_pack_unpack y, hy]
      rfl

theorem agree_add {x y : Float} (h : Agree x y) (w : Float) : Agree (x + w) (y + w) := by
  rcases h with rfl | ⟨hx, hy⟩
  · exact .inl rfl
  · exact (agree_add_of_isZero hx w).trans (agree_add_of_isZero hy w).symm

theorem agree_foldl {x y : Float} (h : Agree x y) (weights : List Float) :
    Agree (weights.foldl (· + ·) x) (weights.foldl (· + ·) y) := by
  induction weights generalizing x y with
  | nil => exact h
  | cons w rest ih => exact ih (agree_add h w)

/-- A sum may as well begin with its first weight. -/
theorem agree_foldl_cons (w : Float) (rest : List Float) :
    Agree ((w :: rest).foldl (· + ·) 0) (rest.foldl (· + ·) w) :=
  agree_foldl (agree_add_of_isZero ⟨_, zero_unpack⟩ w) rest

/-- What agrees with a double above zero does not equal zero. -/
theorem beq_zero_of_agree {x y : Float} (hpos : 0 < x) (h : Agree x y) : (y == 0) = false := by
  rw [lt_iff, zero_unpack] at hpos
  rcases h with rfl | ⟨⟨s, hs⟩, -⟩
  · show x.toModel.unpack.beq (.zero .positive) = false
    cases hx : x.toModel.unpack with
    | notANumber => rfl
    | infinity s => cases s <;> rfl
    | zero s =>
        rw [hx] at hpos
        cases hpos
    | finite s m e hm => cases s <;> rfl
  · rw [hs] at hpos
    cases hpos

end GrowthGrammar.Double
