import GrowthGrammar.Proofs.Context.Assignment
import GrowthGrammar.Proofs.Context.Walk

/-!
# Patterns that a forest accepts

When does a branching neighbourhood satisfy a branching pattern? Both are read as forests, and
`Forest.Accepts` goes through them level by level: symbols are looked for past whole branches and
ignored symbols, and a group of the pattern is answered by the very next branch, which may hold more
than the group asks for. What is accepted in this sense is always found (`matchesContext_of_accepts`),
although the walk sees neither forest nor levels, but one row with one number for its depth.
-/

set_option autoImplicit false

namespace GrowthGrammar

/-- Whether a forest, read from the front, has what the items of a pattern ask for. -/
inductive Forest.Accepts (ignored : String → Bool) : Forest → Forest → Prop where
  /-- Anything may be left over. -/
  | done {trees : Forest} : Accepts ignored trees .empty
  | meet {symbol : String} {plain plain' : isBracket symbol = false} {trees items : Forest}
      (rest : Accepts ignored trees items) :
      Accepts ignored (.leaf symbol plain trees) (.leaf symbol plain' items)
  /-- On the way to a symbol ignored symbols are passed. -/
  | passSymbol {symbol wanted : String} {plain : isBracket symbol = false}
      {plain' : isBracket wanted = false} {trees items : Forest} (hne : symbol ≠ wanted)
      (hignored : ignored symbol = true) (rest : Accepts ignored trees (.leaf wanted plain' items)) :
      Accepts ignored (.leaf symbol plain trees) (.leaf wanted plain' items)
  /-- So are whole branches. -/
  | passBranch {inside : Forest} {wanted : String} {plain : isBracket wanted = false}
      {trees items : Forest} (rest : Accepts ignored trees (.leaf wanted plain items)) :
      Accepts ignored (.branch inside trees) (.leaf wanted plain items)
  /-- On the way to a branch only ignored symbols are passed. -/
  | passToBranch {symbol : String} {plain : isBracket symbol = false} {trees group items : Forest}
      (hignored : ignored symbol = true) (rest : Accepts ignored trees (.branch group items)) :
      Accepts ignored (.leaf symbol plain trees) (.branch group items)
  | enter {inside trees group items : Forest} (inner : Accepts ignored inside group)
      (rest : Accepts ignored trees items) :
      Accepts ignored (.branch inside trees) (.branch group items)

namespace Forest

variable {side : Side} {ignored : String → Bool}

/-- **Inside a branch** that the pattern has entered, the walk meets what the branch accepts, passes
what is left over, and comes out behind it. The induction is on what is accepted, so that a group
inside the branch is a branch inside the branch. -/
theorem Accepts.walk_eq {inside group : Forest} (h : Accepts ignored inside group)
    (nesting : Nesting) (symbols pattern : List String) :
    walk side ignored nesting.enter (inside.row side ++ side.closing :: symbols)
        (group.row side ++ side.closing :: pattern) =
      walk side ignored nesting symbols pattern := by
  induction h generalizing nesting symbols pattern with
  | done =>
      rw [row, List.nil_append, walk_leftover, walk_finish nesting.tracks_enter,
        Nesting.leave_enter]
  | @meet symbol plain plain' trees items rest ih =>
      rw [row, row, List.cons_append, List.cons_append, walk_meet plain nesting.tracks_enter, ih]
  | @passSymbol symbol wanted plain plain' trees items hne hignored rest ih =>
      have hrest := ih nesting symbols pattern
      rw [row, List.cons_append] at hrest
      rw [row, row, List.cons_append, List.cons_append, walk_unmet plain (.inl hne), hrest]
      simp [hignored]
  | @passBranch inside wanted plain trees items rest ih =>
      have hrest := ih nesting symbols pattern
      rw [row, List.cons_append] at hrest
      rw [row, row, List.cons_append, List.append_assoc, List.cons_append, List.cons_append,
        walk_branch inside (side.isBracket_eq_false_iff.1 plain).1.symm, hrest]
  | @passToBranch symbol plain trees group items hignored rest ih =>
      have hne := (side.isBracket_eq_false_iff.1 plain).1
      have hrest := ih nesting symbols pattern
      rw [row, List.cons_append] at hrest
      rw [row, row, List.cons_append, List.cons_append, walk_unmet plain (.inl hne), hrest]
      simp [hignored]
  | @enter inside trees group items inner rest ihinner ihrest =>
      rw [row, row, List.cons_append, List.cons_append, walk_enter nesting.tracks_enter,
        List.append_assoc, List.append_assoc, List.cons_append, List.cons_append, ihinner, ihrest]

/-- Outside of all branches a bracket that closes nothing is passed. -/
theorem walk_strays (count : Nat) {wanted : String} (h : side.closing ≠ wanted)
    (symbols pattern : List String) :
    walk side ignored {} (List.replicate count side.closing ++ symbols) (wanted :: pattern) =
      walk side ignored {} symbols (wanted :: pattern) := by
  induction count with
  | zero => rfl
  | succ count ih =>
      rw [List.replicate_succ, List.cons_append, walk_leave (.inl h)]
      exact ih

/-- Outside of all branches the walk meets what the row accepts once its strays are dropped. -/
theorem Accepts.walk_eq_true {forest items : Forest} (h : Accepts ignored forest items)
    {symbols : List String} (hforest : forest.row side = side.dropStrays 0 symbols) :
    walk side ignored {} symbols (items.row side) = true := by
  induction h generalizing symbols with
  | done => exact walk_nil
  | @meet symbol plain plain' trees items rest ih =>
      obtain ⟨count, behind, rfl, hbehind⟩ := Side.exists_leaf_of_dropStrays hforest
      rw [row, walk_strays count (side.isBracket_eq_false_iff.1 plain).2.symm, walk_meet plain rfl]
      exact ih hbehind
  | @passSymbol symbol wanted plain plain' trees items hne hignored rest ih =>
      obtain ⟨count, behind, rfl, hbehind⟩ := Side.exists_leaf_of_dropStrays hforest
      rw [row, walk_strays count (side.isBracket_eq_false_iff.1 plain').2.symm,
        walk_unmet plain (.inl hne), hignored, Bool.true_or, Bool.true_and]
      exact ih hbehind
  | @passBranch inside wanted plain trees items rest ih =>
      obtain ⟨hopening, hclosing⟩ := side.isBracket_eq_false_iff.1 plain
      obtain ⟨count, behind, rfl, hbehind⟩ := Side.exists_branch_of_dropStrays hforest
      rw [row, walk_strays count hclosing.symm, walk_branch inside hopening.symm]
      exact ih hbehind
  | @passToBranch symbol plain trees group items hignored rest ih =>
      obtain ⟨count, behind, rfl, hbehind⟩ := Side.exists_leaf_of_dropStrays hforest
      rw [row, walk_strays count side.opening_ne_closing.symm,
        walk_unmet plain (.inl (side.isBracket_eq_false_iff.1 plain).1), hignored, Bool.true_or,
        Bool.true_and]
      exact ih hbehind
  | @enter inside trees group items inner rest ihinner ihrest =>
      obtain ⟨count, behind, rfl, hbehind⟩ := Side.exists_branch_of_dropStrays hforest
      rw [row, walk_strays count side.opening_ne_closing.symm, walk_enter rfl,
        inner.walk_eq]
      exact ihrest hbehind

end Forest

/-- **What a neighbourhood accepts is found.** Take a letter such that every branch opened on one
side of it is closed there, and a pattern with balanced brackets. That side, without the brackets
that close nothing there, is a forest, and so is the pattern in the order in which it is met; and
if the one accepts the other, the pattern matches. -/
theorem matchesContext_of_accepts (word : List String) (index : Nat) (pattern : List String)
    (side : Side) (ignored : Alphabet .ignored) (hword : side.ClosesAll (side.outward word index))
    (hpattern : Side.after.IsBalanced pattern) :
    (∃ forest : Forest, forest.row side = side.dropStrays 0 (side.outward word index)) ∧
    (∃ items : Forest, items.row side = side.facing pattern) ∧
    ∀ forest items : Forest,
      forest.row side = side.dropStrays 0 (side.outward word index) →
      items.row side = side.facing pattern →
      forest.Accepts (fun symbol => decide (symbol ∈ ignored)) items →
      matchesContext word index pattern side ignored = true := by
  refine ⟨Side.exists_forest (Side.closesAll_iff.1 hword), ?_, ?_⟩
  · exact Side.exists_forest (level_facing hpattern)
  · intro forest items hforest hitems haccepts
    rw [matchesContext, ← hitems]
    exact haccepts.walk_eq_true hforest

/-- A letter inside a branch, with a turn before the branch that the pattern enters, a branch and
a symbol left over in it, and a bracket that closes nothing behind it. -/
theorem matchesContext_of_accepts_leftover :
    Side.after.ClosesAll
      (Side.after.outward ["[", "A", "+", "[", "C", "[", "X", "]", "E", "]", "]", "D"] 1) ∧
    Side.after.IsBalanced ["[", "C", "]", "D"] ∧
    matchesContext ["[", "A", "+", "[", "C", "[", "X", "]", "E", "]", "]", "D"] 1
      ["[", "C", "]", "D"] .after drawingMarks = true := by
  have hword : Side.after.ClosesAll
      (Side.after.outward ["[", "A", "+", "[", "C", "[", "X", "]", "E", "]", "]", "D"] 1) := by
    decide
  have hpattern : Side.after.IsBalanced ["[", "C", "]", "D"] := by decide
  let forest : Forest :=
    .leaf "+" rfl (.branch (.leaf "C" rfl (.branch (.leaf "X" rfl .empty) (.leaf "E" rfl .empty)))
      (.leaf "D" rfl .empty))
  let items : Forest := .branch (.leaf "C" rfl .empty) (.leaf "D" rfl .empty)
  have haccepts : forest.Accepts (fun symbol => decide (symbol ∈ drawingMarks)) items :=
    .passToBranch (by decide) (.enter (.meet .done) (.meet .done))
  obtain ⟨-, -, hmatches⟩ := matchesContext_of_accepts _ 1 _ .after drawingMarks hword hpattern
  exact ⟨hword, hpattern, hmatches forest items (by decide) (by decide) haccepts⟩

end GrowthGrammar
