import GrowthGrammar.Proofs.Double.Sum

/-!
# Reliable samplers

A sampler is reliable if it picks one of the alternatives whenever their weights can be drawn by. The
seeded sampler is (`isReliable_seeded`): it begins the sum of the weights with the first of them and
not with zero, which makes no difference to whether there is anything to draw from, and it has fewer
partial sums to count than there are weights.
-/

set_option autoImplicit false

namespace GrowthGrammar.Sampler

/-- A sampler that picks the index of an alternative whenever it can. -/
def IsReliable (sampler : Sampler) : Prop :=
  ∀ (seed : String) (weights : List Float), IsDrawable weights →
    ∃ pick < weights.length, sampler seed weights = .ok pick

/-- There is one partial sum for each weight but the first, and the last sum is the total. -/
theorem partialSums_eq (first : Float) (rest : List Float) :
    (partialSums first rest).1.length = rest.length ∧
      (partialSums first rest).2 = rest.foldl (· + ·) first := by
  induction rest generalizing first with
  | nil => exact ⟨rfl, rfl⟩
  | cons weight rest ih =>
      obtain ⟨hlength, htotal⟩ := ih (first + weight)
      exact ⟨congrArg (· + 1) hlength, htotal⟩

/-- What is picked is the number of partial sums that the draw reaches. -/
theorem seeded_eq_ok (seed : String) {first : Float} {rest : List Float}
    (h : IsDrawable (first :: rest)) :
    seeded seed (first :: rest) = .ok ((partialSums first rest).1.countP
      fun sum => sum ≤ draw seed (partialSums first rest).2) := by
  have hvalid : (first :: rest).find? (fun weight => !isWeight weight) = none := by
    rw [List.find?_eq_none]
    intro weight hweight
    simp [h.isWeight_of_mem weight hweight]
  -- the total is above zero however it is added up
  have hpos : ((partialSums first rest).2 == 0) = false := by
    rw [(partialSums_eq first rest).2]
    exact Double.beq_zero_of_agree h.pos (Double.agree_foldl_cons first rest)
  simp only [seeded, hvalid, hpos, Bool.false_eq_true, if_false]

/-- The seeded sampler is reliable. -/
theorem isReliable_seeded : IsReliable seeded := by
  intro seed weights h
  match weights, h with
  | [], h => exact absurd rfl h.nonempty
  | first :: rest, h =>
      refine ⟨_, ?_, seeded_eq_ok seed h⟩
      rw [List.length_cons, Nat.lt_succ_iff, ← (partialSums_eq first rest).1]
      exact List.countP_le_length

end GrowthGrammar.Sampler
