import GrowthGrammar.Derivation.Resolution

/-!
# The steps of a descent

A descent stands at a leaf, or it draws from a set of alternatives and goes on from the one that is
picked, unless the sampler fails or picks none of them (`Successor.Descends`). There is no other way
to descend (`Successor.descends`), so what is true of every descent is shown by induction on its steps.
-/

set_option autoImplicit false

namespace GrowthGrammar

/-- The successor that is the leaf itself. -/
def Leaf.successor : Leaf → Successor
  | .phrase text => .phrase text
  | .word letters => .word letters
  | .computed result => .computed result

theorem Leaf.descend_successor (leaf : Leaf) (sampler : Sampler) (seed : String) :
    leaf.successor.descend sampler seed = ⟨[], .ok leaf⟩ := by
  cases leaf <;> rw [Leaf.successor, Successor.descend]

/-- How a successor is followed down, draw by draw. -/
inductive Successor.Descends (sampler : Sampler) (seed : String) : Successor → Descent → Prop where
  | leaf (leaf : Leaf) : Descends sampler seed leaf.successor ⟨[], .ok leaf⟩
  | failed {alternatives : List (Successor × Float)} {cause : SampleError}
      (fails : sampler seed (alternatives.map Prod.snd) = .error cause) :
      Descends sampler seed (.stochastic alternatives)
        ⟨[⟨seed, alternatives.map Prod.snd, none⟩], .error cause⟩
  | missed {alternatives : List (Successor × Float)} {pick : Nat}
      (picks : sampler seed (alternatives.map Prod.snd) = .ok pick)
      (absent : alternatives[pick]? = none) :
      Descends sampler seed (.stochastic alternatives)
        ⟨[⟨seed, alternatives.map Prod.snd, some pick⟩],
          .error (.outOfRange pick alternatives.length)⟩
  | into {alternatives : List (Successor × Float)} {pick : Nat} {alternative : Successor × Float}
      {below : Descent} (picks : sampler seed (alternatives.map Prod.snd) = .ok pick)
      (taken : alternatives[pick]? = some alternative)
      (behind : Descends sampler seed alternative.1 below) :
      Descends sampler seed (.stochastic alternatives)
        ⟨⟨seed, alternatives.map Prod.snd, some pick⟩ :: below.draws, below.leaf⟩

/-- The descent through a successor takes these steps. -/
theorem Successor.descends (sampler : Sampler) (seed : String) :
    ∀ successor : Successor, Descends sampler seed successor (successor.descend sampler seed)
  | .phrase text => by
      rw [descend]
      exact .leaf (.phrase text)
  | .word letters => by
      rw [descend]
      exact .leaf (.word letters)
  | .computed result => by
      rw [descend]
      exact .leaf (.computed result)
  | .stochastic alternatives => by
      rw [descend]
      dsimp only
      split
      · next cause hfails => exact .failed hfails
      · next pick hpicks =>
        rw [descendInto_eq]
        cases htaken : alternatives[pick]? with
        | none => exact .missed hpicks htaken
        | some alternative =>
            have hmem := List.mem_of_getElem? htaken
            exact .into hpicks htaken (descends sampler seed alternative.1)
termination_by successor => sizeOf successor
decreasing_by
  -- an alternative is smaller than the set, and its successor smaller than the pair with the weight
  have hlist := List.sizeOf_lt_of_mem hmem
  cases alternative
  simp only [Prod.mk.sizeOf_spec, Successor.stochastic.sizeOf_spec] at hlist ⊢
  omega

end GrowthGrammar
