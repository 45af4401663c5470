import GrowthGrammar.Proofs.Context.Brackets

/-!
# Words in a mirror

In a mirror a word is read from its other end, and what opened a branch closes it. Left and right of
a letter change places, so a pattern matches on one side exactly when its mirror image matches on the
other side in the mirror image of the word (`matchesContext_eq_mirror`). The reason is one step of
the walk: it never looks at more of a symbol than whether it opens a branch, closes one, is the
wanted one or is ignored, and none of that changes in the mirror (`visit_mirror`).
-/

set_option autoImplicit false

namespace GrowthGrammar

/-! ## Mirror images -/

/-- A symbol in the mirror: the brackets are exchanged. -/
def mirrorSymbol (symbol : String) : String :=
  if symbol = "[" then "]" else if symbol = "]" then "[" else symbol

/-- A row of symbols in the mirror. -/
def mirror (symbols : List String) : List String :=
  (symbols.map mirrorSymbol).reverse

/-- Looking into the mirror twice shows the symbol itself. -/
theorem mirrorSymbol_mirrorSymbol (symbol : String) :
    mirrorSymbol (mirrorSymbol symbol) = symbol := by
  unfold mirrorSymbol
  by_cases hleft : symbol = "["
  · simp [hleft]
  · by_cases hright : symbol = "]" <;> simp [hleft, hright]

theorem mirrorSymbol_inj {symbol other : String} :
    mirrorSymbol symbol = mirrorSymbol other ↔ symbol = other := by
  constructor
  · intro h
    rw [← mirrorSymbol_mirrorSymbol symbol, h, mirrorSymbol_mirrorSymbol]
  · intro h
    rw [h]

namespace Side

/-- What opens a branch on one side is the mirror image of what opens it on the other. -/
theorem mirrorSymbol_opening (side : Side) : mirrorSymbol side.opening = side.flip.opening := by
  cases side <;> rfl

theorem mirrorSymbol_closing (side : Side) : mirrorSymbol side.closing = side.flip.closing := by
  cases side <;> rfl

theorem mirrorSymbol_eq_opening_iff (side : Side) {symbol : String} :
    mirrorSymbol symbol = side.flip.opening ↔ symbol = side.opening := by
  rw [← mirrorSymbol_opening, mirrorSymbol_inj]

theorem mirrorSymbol_eq_closing_iff (side : Side) {symbol : String} :
    mirrorSymbol symbol = side.flip.closing ↔ symbol = side.closing := by
  rw [← mirrorSymbol_closing, mirrorSymbol_inj]

/-- Other symbols look the same in the mirror. -/
theorem mirrorSymbol_of_ne (side : Side) {symbol : String} (hopening : symbol ≠ side.opening)
    (hclosing : symbol ≠ side.closing) : mirrorSymbol symbol = symbol := by
  unfold mirrorSymbol
  cases side with
  | before => exact (if_neg hclosing).trans (if_neg hopening)
  | after => exact (if_neg hopening).trans (if_neg hclosing)

end Side

/-! ## Walks -/

/-- One step of the walk is the same in the mirror. -/
theorem Nesting.visit_mirror (side : Side) (ignored : String → Bool) (nesting : Nesting)
    (wanted symbol : String) :
    nesting.visit side.flip ignored (mirrorSymbol wanted) (mirrorSymbol symbol) =
      nesting.visit side ignored wanted symbol := by
  unfold visit
  simp only [mirrorSymbol_inj, side.mirrorSymbol_eq_opening_iff, side.mirrorSymbol_eq_closing_iff,
    ne_eq]
  -- only a symbol that is no bracket is looked up among the ignored ones
  rcases side.bracket_cases symbol with rfl | rfl | ⟨hopening, hclosing⟩
  · simp
  · simp [side.opening_ne_closing.symm]
  · rw [side.mirrorSymbol_of_ne hopening hclosing]

/-- So is the whole walk. -/
theorem walk_mirror (side : Side) (ignored : String → Bool) (nesting : Nesting)
    (symbols pattern : List String) :
    walk side.flip ignored nesting (symbols.map mirrorSymbol) (pattern.map mirrorSymbol) =
      walk side ignored nesting symbols pattern := by
  induction symbols generalizing nesting pattern with
  | nil => cases pattern <;> rfl
  | cons symbol symbols ih =>
      cases pattern with
      | nil => rfl
      | cons wanted pattern =>
          simp only [List.map_cons, walk, Nesting.visit_mirror]
          cases nesting.visit side ignored wanted symbol with
          | matched next => exact ih next pattern
          | skipped next =>
              have hstep := ih next (wanted :: pattern)
              rw [List.map_cons] at hstep
              exact hstep
          | refused => rfl

namespace Side

/-- What lies on one side of a letter lies on the other side of it in the mirror, as near to the
letter as before. -/
theorem outward_mirror (side : Side) {word : List String} {index : Nat}
    (hindex : index < word.length) :
    side.flip.outward (mirror word) (word.length - 1 - index) =
      (side.outward word index).map mirrorSymbol := by
  cases side with
  | before =>
      show (mirror word).drop (word.length - 1 - index + 1) = _
      have hdrop : word.length - 1 - index + 1 = (word.map mirrorSymbol).length - index := by
        rw [List.length_map]
        omega
      rw [mirror, hdrop, ← List.reverse_take, outward, List.map_reverse, List.map_take]
  | after =>
      show ((mirror word).take (word.length - 1 - index)).reverse = _
      have htake : word.length - 1 - index = (word.map mirrorSymbol).length - (index + 1) := by
        rw [List.length_map]
        omega
      rw [mirror, htake, ← List.reverse_drop, List.reverse_reverse, outward, List.map_drop]

theorem facing_mirror (side : Side) (pattern : List String) :
    side.flip.facing (mirror pattern) = (side.facing pattern).map mirrorSymbol := by
  cases side with
  | before =>
      show mirror pattern = pattern.reverse.map mirrorSymbol
      rw [mirror, List.map_reverse]
  | after =>
      show (mirror pattern).reverse = pattern.map mirrorSymbol
      rw [mirror, List.reverse_reverse]

end Side

/-- **Left and right are mirror images.** A pattern, with balanced brackets or not, matches on one
side of a letter exactly when in the mirror it matches on the other side, in the same place counted
from the other end. -/
theorem matchesContext_eq_mirror (word : List String) {index : Nat} (hindex : index < word.length)
    (pattern : List String) (side : Side) (ignored : Alphabet .ignored) :
    matchesContext word index pattern side ignored =
      matchesContext (mirror word) (word.length - 1 - index) (mirror pattern) side.flip ignored := by
  unfold matchesContext
  rw [side.outward_mirror hindex, side.facing_mirror, walk_mirror]

/-- The left neighbours of D in `A[C[E]]-D` are the right neighbours of D in `D-[[E]C]A`. -/
theorem matchesContext_eq_mirror_nested :
    8 < ["A", "[", "C", "[", "E", "]", "]", "-", "D"].length ∧
      mirror ["A", "[", "C", "[", "E", "]", "]", "-", "D"] =
        ["D", "-", "[", "[", "E", "]", "C", "]", "A"] ∧
      matchesContext ["D", "-", "[", "[", "E", "]", "C", "]", "A"] 0 ["[", "C", "]", "A"] .after
        drawingMarks = true ∧
      matchesContext ["A", "[", "C", "[", "E", "]", "]", "-", "D"] 8 ["A", "[", "C", "]"] .before
        drawingMarks = true := by
  have hindex : 8 < ["A", "[", "C", "[", "E", "]", "]", "-", "D"].length := by decide
  have hright : matchesContext ["D", "-", "[", "[", "E", "]", "C", "]", "A"] 0
      ["[", "C", "]", "A"] .after drawingMarks = true := by decide
  have hsides := matchesContext_eq_mirror _ hindex ["A", "[", "C", "]"] .before drawingMarks
  exact ⟨hindex, by decide, hright, hsides.trans hright⟩

end GrowthGrammar
