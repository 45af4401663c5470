import GrowthGrammar.Proofs.Context.Walk
import Mathlib.Data.List.Basic

/-!
# Longer contexts and longer words

A walk ends as soon as it has met the whole pattern, and up to there it has looked at nothing that
comes later, neither in the word nor in the pattern (`walk_of_prefix`). So a context reads one side of
the letter only, a longer context is stricter than a shorter one, and a word that grows at its far end
keeps the contexts that it satisfies (`matchesContext_monotone`). Brackets need not be balanced.
-/

set_option autoImplicit false

namespace GrowthGrammar

/-! ## Walks -/

/-- What a walk meets, it also meets of the beginning of the pattern, and among more symbols. -/
theorem walk_of_prefix {side : Side} {ignored : String → Bool} {nesting : Nesting}
    {symbols further pattern longer : List String} (hsymbols : symbols <+: further)
    (hpattern : pattern <+: longer) (h : walk side ignored nesting symbols longer = true) :
    walk side ignored nesting further pattern = true := by
  induction symbols generalizing nesting further pattern longer with
  | nil =>
      -- symbols that have run out meet the empty pattern only
      cases longer with
      | nil => rw [List.prefix_nil.1 hpattern, walk_nil]
      | cons wanted longer => cases h
  | cons symbol symbols ih =>
      cases pattern with
      | nil => exact walk_nil
      | cons wanted pattern =>
          obtain ⟨beyond, rfl⟩ := hsymbols
          obtain ⟨more, rfl⟩ := hpattern
          -- the step is the same on both walks: it depends on the two symbols in front alone
          rw [List.cons_append, walk] at h ⊢
          cases hvisit : nesting.visit side ignored wanted symbol with
          | matched next =>
              rw [hvisit] at h
              exact ih ⟨beyond, rfl⟩ ⟨more, rfl⟩ h
          | skipped next =>
              rw [hvisit] at h
              exact ih ⟨beyond, rfl⟩ ⟨more, rfl⟩ h
          | refused =>
              rw [hvisit] at h
              cases h

/-! ## Contexts -/

section Contexts

variable {side : Side} {ignored : Alphabet .ignored} {word other pattern longer : List String}
  {index position : Nat}

/-- Only what lies on the side of the pattern counts. -/
theorem matchesContext_congr (h : side.outward other position = side.outward word index) :
    matchesContext other position pattern side ignored =
      matchesContext word index pattern side ignored := by
  rw [matchesContext, matchesContext, h]

theorem matchesContext_of_prefix (hword : side.outward word index <+: side.outward other position)
    (hpattern : side.facing pattern <+: side.facing longer)
    (h : matchesContext word index longer side ignored = true) :
    matchesContext other position pattern side ignored = true :=
  walk_of_prefix hword hpattern h

end Contexts

/-- Symbols behind the end of a word lie farther to the right. -/
theorem Side.outward_after_prefix (word parts : List String) (index : Nat) :
    Side.after.outward word index <+: Side.after.outward (word ++ parts) index := by
  rw [outward, outward, List.drop_append]
  exact List.prefix_append _ _

/-- Symbols before the beginning of a word lie farther to the left, and every position moves by as
many. -/
theorem Side.outward_before_prefix (word parts : List String) (index : Nat) :
    Side.before.outward word index <+:
      Side.before.outward (parts ++ word) (parts.length + index) := by
  rw [outward, outward, List.take_length_add_append, List.reverse_append]
  exact List.prefix_append _ _

/-- **Contexts are one-sided and monotone.** To the right only the symbols behind the position count;
a pattern matches wherever a longer one with more symbols at its end does, and it still matches when
the word is continued at its end. To the left it is the same the other way round. -/
theorem matchesContext_monotone (word : List String) (index : Nat) (pattern more : List String)
    (ignored : Alphabet .ignored) :
    ((∀ other position, other.drop (position + 1) = word.drop (index + 1) →
        matchesContext other position pattern .after ignored =
          matchesContext word index pattern .after ignored) ∧
      (matchesContext word index (pattern ++ more) .after ignored = true →
        matchesContext word index pattern .after ignored = true) ∧
      ∀ parts, matchesContext word index pattern .after ignored = true →
        matchesContext (word ++ parts) index pattern .after ignored = true) ∧
    ((∀ other position, other.take position = word.take index →
        matchesContext other position pattern .before ignored =
          matchesContext word index pattern .before ignored) ∧
      (matchesContext word index (more ++ pattern) .before ignored = true →
        matchesContext word index pattern .before ignored = true) ∧
      ∀ parts, matchesContext word index pattern .before ignored = true →
        matchesContext (parts ++ word) (parts.length + index) pattern .before ignored = true) := by
  refine ⟨⟨fun other position h => ?_, fun h => ?_, fun parts h => ?_⟩,
    ⟨fun other position h => ?_, fun h => ?_, fun parts h => ?_⟩⟩
  · exact matchesContext_congr h
  · exact matchesContext_of_prefix List.prefix_rfl (List.prefix_append pattern more) h
  · exact matchesContext_of_prefix (Side.outward_after_prefix word parts index) List.prefix_rfl h
  · exact matchesContext_congr (congrArg List.reverse h)
  · refine matchesContext_of_prefix List.prefix_rfl ?_ h
    rw [Side.facing, Side.facing, List.reverse_append]
    exact List.prefix_append _ _
  · exact matchesContext_of_prefix (Side.outward_before_prefix word parts index) List.prefix_rfl h

/-- The right neighbours of the A and the left neighbours of the D in `BA[C]-D`. -/
theorem matchesContext_monotone_branch :
    matchesContext ["F", "A", "A", "[", "C", "]", "-", "D"] 2 ["[", "C", "]"] .after drawingMarks =
        matchesContext ["B", "A", "[", "C", "]", "-", "D"] 1 ["[", "C", "]"] .after drawingMarks ∧
      matchesContext ["B", "A", "[", "C", "]", "-", "D"] 1 ["[", "C", "]"] .after drawingMarks =
        true ∧
      matchesContext ["B", "A", "[", "C", "]", "-", "D", "]", "E"] 1 ["[", "C", "]"] .after
        drawingMarks = true ∧
      matchesContext ["B", "A", "[", "C", "]", "-", "F"] 6 ["A"] .before drawingMarks =
        matchesContext ["B", "A", "[", "C", "]", "-", "D"] 6 ["A"] .before drawingMarks ∧
      matchesContext ["B", "A", "[", "C", "]", "-", "D"] 6 ["A"] .before drawingMarks = true ∧
      matchesContext ["E", "[", "B", "A", "[", "C", "]", "-", "D"] 8 ["A"] .before drawingMarks =
        true := by
  obtain ⟨⟨hright, hlonger, hgrown⟩, -⟩ :=
    matchesContext_monotone ["B", "A", "[", "C", "]", "-", "D"] 1 ["[", "C", "]"] ["D"] drawingMarks
  obtain ⟨-, hleft, hlonger', hgrown'⟩ :=
    matchesContext_monotone ["B", "A", "[", "C", "]", "-", "D"] 6 ["A"] ["B"] drawingMarks
  have hafter := hlonger (by decide)
  have hbefore := hlonger' (by decide)
  exact ⟨hright _ 2 rfl, hafter, hgrown ["]", "E"] hafter, hleft _ 6 rfl, hbefore,
    hgrown' ["E", "["] hbefore⟩

end GrowthGrammar
