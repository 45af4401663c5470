import GrowthGrammar.Proofs.Context.Forest

/-!
# Steps of a walk

What a walk does at one symbol, one equation for each kind of step, and what it does over a whole
branch that the pattern did not enter (`walk_branch`): it comes out as it went in.
-/

set_option autoImplicit false

namespace GrowthGrammar

/-! ## Nestings -/

namespace Nesting

@[simp] theorem leave_enter (nesting : Nesting) : nesting.enter.leave = nesting := rfl

@[simp] theorem leave_pass (nesting : Nesting) : nesting.pass.leave = nesting := by
  obtain ⟨depth, followed⟩ := nesting
  cases followed <;> rfl

@[simp] theorem tracks_enter (nesting : Nesting) : nesting.enter.tracks = true := by
  simp [enter, tracks]

@[simp] theorem tracks_pass (nesting : Nesting) : nesting.pass.tracks = false := by
  obtain ⟨depth, followed⟩ := nesting
  cases followed <;> simp [pass, tracks]

theorem depth_ne_zero_of_tracks {nesting : Nesting} (h : nesting.tracks = false) :
    nesting.depth ≠ 0 := by
  intro hdepth
  simp [tracks, hdepth] at h

end Nesting

/-! ## One symbol -/

section Step

variable {side : Side} {ignored : String → Bool} {nesting : Nesting} {wanted symbol : String}
  {symbols pattern : List String}

@[simp] theorem walk_nil : walk side ignored nesting symbols [] = true := by
  cases symbols <;> rfl

theorem walk_enter (h : nesting.tracks = true) :
    walk side ignored nesting (side.opening :: symbols) (side.opening :: pattern) =
      walk side ignored nesting.enter symbols pattern := by
  rw [walk, Nesting.visit, if_pos ⟨rfl, h⟩, if_pos rfl]

theorem walk_finish (h : nesting.tracks = true) :
    walk side ignored nesting (side.closing :: symbols) (side.closing :: pattern) =
      walk side ignored nesting.leave symbols pattern := by
  rw [walk, Nesting.visit, if_pos ⟨rfl, h⟩, if_neg side.opening_ne_closing.symm, if_pos rfl]

theorem walk_meet (hplain : isBracket symbol = false) (h : nesting.tracks = true) :
    walk side ignored nesting (symbol :: symbols) (symbol :: pattern) =
      walk side ignored nesting symbols pattern := by
  obtain ⟨hopening, hclosing⟩ := side.isBracket_eq_false_iff.1 hplain
  rw [walk, Nesting.visit, if_pos ⟨rfl, h⟩, if_neg hopening, if_neg hclosing]

theorem walk_pass (h : side.opening ≠ wanted ∨ nesting.tracks = false) :
    walk side ignored nesting (side.opening :: symbols) (wanted :: pattern) =
      walk side ignored nesting.pass symbols (wanted :: pattern) := by
  have hwanted : ¬(side.opening = wanted ∧ nesting.tracks = true) := by
    rintro ⟨heq, htracks⟩
    simp [heq, htracks] at h
  rw [walk, Nesting.visit, if_neg hwanted, if_pos rfl]

theorem walk_leave (h : side.closing ≠ wanted ∨ nesting.tracks = false) :
    walk side ignored nesting (side.closing :: symbols) (wanted :: pattern) =
      walk side ignored nesting.leave symbols (wanted :: pattern) := by
  have hwanted : ¬(side.closing = wanted ∧ nesting.tracks = true) := by
    rintro ⟨heq, htracks⟩
    simp [heq, htracks] at h
  rw [walk, Nesting.visit, if_neg hwanted, if_neg side.opening_ne_closing.symm, if_pos rfl]

/-- A symbol that is not met is looked at if it stands outside of all branches, or in a branch of
the pattern that still has symbols to meet. There it has to be ignored. -/
theorem walk_unmet (hplain : isBracket symbol = false)
    (h : symbol ≠ wanted ∨ nesting.tracks = false) :
    walk side ignored nesting (symbol :: symbols) (wanted :: pattern) =
      ((ignored symbol || (nesting.depth != 0 &&
        (!nesting.tracks || wanted == side.closing))) &&
        walk side ignored nesting symbols (wanted :: pattern)) := by
  obtain ⟨hopening, hclosing⟩ := side.isBracket_eq_false_iff.1 hplain
  have hwanted : ¬(symbol = wanted ∧ nesting.tracks = true) := by
    rintro ⟨heq, htracks⟩
    simp [heq, htracks] at h
  rw [walk, Nesting.visit, if_neg hwanted, if_neg hopening, if_neg hclosing]
  by_cases hdepth : nesting.depth = 0 <;> by_cases hclose : wanted = side.closing <;>
    cases nesting.tracks <;> cases ignored symbol <;> simp [hdepth, hclose]

/-- Inside a branch that the pattern did not enter, symbols do not count. -/
theorem walk_untracked (hplain : isBracket symbol = false) (h : nesting.tracks = false) :
    walk side ignored nesting (symbol :: symbols) (wanted :: pattern) =
      walk side ignored nesting symbols (wanted :: pattern) := by
  rw [walk_unmet hplain (.inr h)]
  simp [h, Nesting.depth_ne_zero_of_tracks h]

end Step

/-! ## Branches that are passed -/

section Branches

variable {side : Side} {ignored : String → Bool} {wanted : String} {symbols pattern : List String}

/-- The walk passes whatever a branch holds that the pattern did not enter. -/
theorem walk_inside (forest : Forest) {nesting : Nesting} (h : nesting.tracks = false) :
    walk side ignored nesting (forest.row side ++ symbols) (wanted :: pattern) =
      walk side ignored nesting symbols (wanted :: pattern) := by
  induction forest generalizing nesting symbols with
  | empty => rfl
  | leaf symbol plain rest ih =>
      rw [Forest.row, List.cons_append, walk_untracked plain h, ih h]
  | branch inside rest ihinside ihrest =>
      rw [Forest.row, List.cons_append, List.append_assoc, List.cons_append, walk_pass (.inr h),
        ihinside nesting.tracks_pass, walk_leave (.inr nesting.tracks_pass), Nesting.leave_pass,
        ihrest h]

/-- A branch that the pattern does not ask for is passed as a whole. -/
theorem walk_branch (inside : Forest) {nesting : Nesting} (h : side.opening ≠ wanted) :
    walk side ignored nesting (side.opening :: (inside.row side ++ side.closing :: symbols))
        (wanted :: pattern) =
      walk side ignored nesting symbols (wanted :: pattern) := by
  rw [walk_pass (.inl h), walk_inside inside nesting.tracks_pass,
    walk_leave (.inr nesting.tracks_pass), Nesting.leave_pass]

/-- Where the pattern waits for the end of a branch, the rest of the branch is passed. -/
theorem walk_leftover (forest : Forest) (nesting : Nesting) :
    walk side ignored nesting.enter (forest.row side ++ symbols) (side.closing :: pattern) =
      walk side ignored nesting.enter symbols (side.closing :: pattern) := by
  induction forest with
  | empty => rfl
  | leaf symbol plain rest ih =>
      have hne := (side.isBracket_eq_false_iff.1 plain).2
      rw [Forest.row, List.cons_append, walk_unmet plain (.inl hne), ih]
      simp [Nesting.enter]
  | branch inside rest ihinside ihrest =>
      rw [Forest.row, List.cons_append, List.append_assoc, List.cons_append,
        walk_branch inside side.opening_ne_closing, ihrest]

end Branches

end GrowthGrammar
