import GrowthGrammar.Proofs.Double.Packing

/-!
# Results that are finite

A double that is not finite stays so: a sum, a difference or a product is finite only if both
operands are, and a quotient only if its dividend is and its divisor is not zero. The one way back is
a quotient by an infinity, which is a zero (`isFinite_of_quotient`).
-/

set_option autoImplicit false

namespace GrowthGrammar.Double

open Float.Model Float.Model.UnpackedFloat

/-! ## Unpacked doubles -/

section Unpacked

variable {spec : Float.Model.Format} {u v : UnpackedFloat}

theorem isFinite_of_neg (h : (UnpackedFloat.neg u).isFinite = true) : u.isFinite = true := by
  cases u <;> exact h

theorem isFinite_of_add (h : (UnpackedFloat.add spec u v).isFinite = true) :
    u.isFinite = true ∧ v.isFinite = true := by
  match u, v, h with
  | .zero _, .zero _, _ => exact ⟨rfl, rfl⟩
  | .zero _, .finite .., _ => exact ⟨rfl, rfl⟩
  | .finite .., .zero _, _ => exact ⟨rfl, rfl⟩
  | .finite .., .finite .., _ => exact ⟨rfl, rfl⟩
  | .infinity s, .infinity t, h =>
      simp only [UnpackedFloat.add] at h
      split at h <;> cases h

theorem isFinite_of_sub (h : (UnpackedFloat.sub spec u v).isFinite = true) :
    u.isFinite = true ∧ v.isFinite = true := by
  match u, v, h with
  | .zero _, .zero _, _ => exact ⟨rfl, rfl⟩
  | .zero _, .finite .., _ => exact ⟨rfl, rfl⟩
  | .finite .., .zero _, _ => exact ⟨rfl, rfl⟩
  | .finite .., .finite .., _ => exact ⟨rfl, rfl⟩
  | .infinity s, .infinity t, h =>
      simp only [UnpackedFloat.sub] at h
      split at h <;> cases h

theorem isFinite_of_mul (h : (UnpackedFloat.mul spec u v).isFinite = true) :
    u.isFinite = true ∧ v.isFinite = true := by
  match u, v, h with
  | .zero _, .zero _, _ => exact ⟨rfl, rfl⟩
  | .zero _, .finite .., _ => exact ⟨rfl, rfl⟩
  | .finite .., .zero _, _ => exact ⟨rfl, rfl⟩
  | .finite .., .finite .., _ => exact ⟨rfl, rfl⟩

/-- A finite quotient has a finite dividend, and a divisor that is infinite or finite and not
zero. -/
theorem isFinite_of_div (h : (UnpackedFloat.div spec u v).isFinite = true) :
    u.isFinite = true ∧ (v.isInf = true ∨ v.isFinite = true ∧ ∀ s, v ≠ .zero s) := by
  match u, v, h with
  | .zero _, .finite .., _ => exact ⟨rfl, .inr ⟨rfl, by rintro s ⟨⟩⟩⟩
  | .finite .., .finite .., _ => exact ⟨rfl, .inr ⟨rfl, by rintro s ⟨⟩⟩⟩
  | .zero _, .infinity _, _ => exact ⟨rfl, .inl rfl⟩
  | .finite .., .infinity _, _ => exact ⟨rfl, .inl rfl⟩

/-- Packing makes nothing finite. -/
theorem isFinite_of_pack (h : (Float.Model.pack u).unpack.isFinite = true) :
    u.isFinite = true := by
  have hpack : (UnpackedFloat.unpack Format.binary64
      (UnpackedFloat.pack Format.binary64 u)).isFinite = true := h
  match u, hpack with
  | .zero _, _ => rfl
  | .finite .., _ => rfl
  | .notANumber, hpack =>
      rw [UnpackedFloat.pack, unpack_packedNaN] at hpack
      exact hpack
  | .infinity s, hpack =>
      rw [UnpackedFloat.pack, unpack_packedInfinity] at hpack
      exact hpack

end Unpacked

/-! ## Doubles -/

section Doubles

variable {x y : Float}

theorem isFinite_eq_false_of_isInf (h : x.isInf = true) : x.isFinite = false := by
  have hinf : x.toModel.unpack.isInf = true := h
  show x.toModel.unpack.isFinite = false
  cases hx : x.toModel.unpack <;> rw [hx] at hinf <;> first | rfl | cases hinf

theorem isFinite_of_negate (h : (-x).isFinite = true) : x.isFinite = true :=
  isFinite_of_neg (u := x.toModel.unpack) (isFinite_of_pack h)

theorem isFinite_of_sum (h : (x + y).isFinite = true) : x.isFinite = true ∧ y.isFinite = true :=
  isFinite_of_add (isFinite_of_pack h)

theorem isFinite_of_difference (h : (x - y).isFinite = true) :
    x.isFinite = true ∧ y.isFinite = true :=
  isFinite_of_sub (isFinite_of_pack h)

theorem isFinite_of_product (h : (x * y).isFinite = true) :
    x.isFinite = true ∧ y.isFinite = true :=
  isFinite_of_mul (isFinite_of_pack h)

/-- A double equals zero if it is one of the two zeros. -/
theorem beq_zero_iff : (x == 0) = true ↔ ∃ s, x.toModel.unpack = .zero s := by
  show x.toModel.unpack.beq (.zero .positive) = true ↔ _
  cases x.toModel.unpack with
  | notANumber => simp [UnpackedFloat.beq, UnpackedFloat.compare]
  | infinity s => cases s <;> simp [UnpackedFloat.beq, UnpackedFloat.compare]
  | zero s => simp [UnpackedFloat.beq, UnpackedFloat.compare]
  | finite s m e hm => cases s <;> simp [UnpackedFloat.beq, UnpackedFloat.compare]

/-- A finite quotient has a finite dividend and no zero for a divisor, which is finite or else
infinite. -/
theorem isFinite_of_quotient (h : (x / y).isFinite = true) :
    x.isFinite = true ∧ (y.isFinite = true ∨ y.isInf = true) ∧ (y == 0) = false := by
  obtain ⟨hx, hy⟩ := isFinite_of_div (isFinite_of_pack h)
  refine ⟨hx, hy.symm.imp_left And.left, ?_⟩
  rw [Bool.eq_false_iff, ne_eq, beq_zero_iff]
  rintro ⟨s, hs⟩
  rw [hs] at hy
  rcases hy with hinf | ⟨-, hne⟩
  · cases hinf
  · exact hne s rfl

end Doubles

end GrowthGrammar.Double
