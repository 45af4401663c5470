import GrowthGrammar.Proofs.Derivation.Descent
import GrowthGrammar.Proofs.Derivation.Settling

/-!
# The leaves of a successor

Whatever a sampler picks, a descent through a successor ends at one of its leaves
(`Successor.Reaches`, `Successor.Descends.reaches`). So a word that is put for an occurrence always
comes from a leaf of one of the rules of its symbol (`exists_leaf_of_settles`), and what is asked of
the leaves is all that has to be known of the rules.
-/

set_option autoImplicit false

namespace GrowthGrammar

/-- The phrases, words and computations of a successor, at any depth of alternatives. -/
inductive Successor.Reaches : Successor → Leaf → Prop where
  | phrase (text : String) : Reaches (.phrase text) (.phrase text)
  | word (word : Word) : Reaches (.word word) (.word word)
  | computed (result : Occurrence → Resolution) : Reaches (.computed result) (.computed result)
  | alternative {alternatives : List (Successor × Float)} {alternative : Successor × Float}
      {leaf : Leaf} (mem : alternative ∈ alternatives) (reaches : Reaches alternative.1 leaf) :
      Reaches (.stochastic alternatives) leaf

/-- A descent ends at a leaf of the successor. -/
theorem Successor.Descends.reaches {sampler : Sampler} {seed : String} {successor : Successor}
    {descent : Descent} (h : Descends sampler seed successor descent) {leaf : Leaf}
    (hleaf : descent.leaf = .ok leaf) : successor.Reaches leaf := by
  induction h with
  | leaf found =>
      obtain rfl := Except.ok.inj hleaf
      cases found with
      | phrase text => exact .phrase text
      | word letters => exact .word letters
      | computed result => exact .computed result
  | failed fails => cases hleaf
  | missed picks absent => cases hleaf
  | into picks taken behind ih => exact .alternative (List.mem_of_getElem? taken) (ih hleaf)

namespace Setting

variable {setting : Setting} {occurrence : Occurrence}

/-- A replacement is what has been made of a leaf of the rule. -/
theorem exists_leaf_of_resolve {rule : Rule} {source : Source}
    (h : setting.resolve rule occurrence = .ok (.replace source)) :
    ∃ leaf, rule.successor.Reaches leaf ∧
      setting.resolveLeaf rule.params occurrence leaf = .ok (.replace source) := by
  unfold resolve at h
  split at h
  · split at h
    · cases h
    · next leaf hleaf => exact ⟨leaf, (rule.successor.descends _ _).reaches hleaf, h⟩
  · cases h

/-- A word that rules put for an occurrence is what has been made of a leaf of one of them. -/
theorem exists_leaf_of_settles {rules : List Rule} {word : Word}
    (h : setting.Settles occurrence rules (.ok (some word))) :
    ∃ rule ∈ rules, ∃ leaf source, rule.successor.Reaches leaf ∧
      setting.resolveLeaf rule.params occurrence leaf = .ok (.replace source) ∧
      setting.normalize source = .ok word := by
  induction rules with
  | nil => cases h
  | cons rule rules ih =>
      cases h with
      | declined _ rest =>
          obtain ⟨found, hmem, hfound⟩ := ih rest
          exact ⟨found, List.mem_cons_of_mem _ hmem, hfound⟩
      | replaced replaces normal =>
          obtain ⟨leaf, hreaches, hleaf⟩ := exists_leaf_of_resolve replaces
          exact ⟨rule, List.mem_cons_self, leaf, _, hreaches, hleaf, normal⟩

end Setting

end GrowthGrammar
