import Mathlib.Logic.Relation

/-!
# Loops

A loop over a state, one round at a time. A round leads to the next state, ends the loop with a
result, or *traps*: it would read what is not there, or take one from a counter that stands at zero.
A loop that ends has not trapped on the way (`Ends.ne_trap`), and what every round keeps holds of
every state that the loop comes to (`Reaches.keeps`).
-/

set_option autoImplicit false

namespace GrowthGrammar

/-- What one round of a loop leads to. -/
inductive Round (σ ρ : Type) where
  | next (state : σ)
  | done (result : ρ)
  /-- Something is read that is not there, or one is taken from zero. -/
  | trap

namespace Round

variable {σ ρ : Type} {round : σ → Round σ ρ} {state next last : σ} {result : ρ}

/-- A loop that stands at one state comes to another, or is there already. -/
def Reaches (round : σ → Round σ ρ) : σ → σ → Prop :=
  Relation.ReflTransGen fun state next => round state = .next next

/-- A loop that stands at a state ends with a result. -/
def Ends (round : σ → Round σ ρ) (state : σ) (result : ρ) : Prop :=
  ∃ last, Reaches round state last ∧ round last = .done result

theorem Ends.of_done (h : round state = .done result) : Ends round state result :=
  ⟨state, .refl, h⟩

theorem Ends.of_next (h : round state = .next next) (hends : Ends round next result) :
    Ends round state result := by
  obtain ⟨last, hlast, hdone⟩ := hends
  exact ⟨last, hlast.head h, hdone⟩

/-- What holds at the start and is kept by every round holds wherever the loop comes. -/
theorem Reaches.keeps {holds : σ → Prop} (h : Reaches round state last) (hstart : holds state)
    (hround : ∀ state next, holds state → round state = .next next → holds next) : holds last := by
  induction h with
  | refl => exact hstart
  | tail _ hnext ih => exact hround _ _ ih hnext

/-- A loop that ends does not trap before. -/
theorem Ends.ne_trap (h : Ends round state result) (hlast : Reaches round state last) :
    round last ≠ .trap := by
  obtain ⟨final, hfinal, hdone⟩ := h
  -- a round leads to one state only, so of the two states one comes before the other
  have hunique : Relator.RightUnique fun state next => round state = .next next := by
    intro state next other hnext hother
    exact Round.next.inj (hnext.symm.trans hother)
  intro htrap
  rcases Relation.ReflTransGen.total_of_right_unique hunique hfinal hlast with hafter | hbefore
  · rcases hafter.cases_head with heq | ⟨other, hother, -⟩
    · rw [← heq, hdone] at htrap
      cases htrap
    · rw [hdone] at hother
      cases hother
  · rcases hbefore.cases_head with heq | ⟨other, hother, -⟩
    · rw [heq, hdone] at htrap
      cases htrap
    · rw [htrap] at hother
      cases hother

end Round

end GrowthGrammar
