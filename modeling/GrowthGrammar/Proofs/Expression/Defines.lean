import GrowthGrammar.Defines
import GrowthGrammar.Proofs.Expression.Name

/-!
# Names that defines can have

A define is set exactly if its name is an identifier, and an expression mentions identifiers only.
So the table and the expressions agree on names: whatever can be set is itself an expression, the
one that has the value that was set, and whatever an expression mentions can be set
(`define_agrees`).
-/

set_option autoImplicit false

namespace GrowthGrammar

/-! ## Setting a define -/

namespace Defines

variable {defines next : Defines} {name : String} {value : Float}

theorem define_eq_ok_iff :
    defines.define name value = .ok next ↔
      isIdentifier name = true ∧ defines.insert name value = next := by
  unfold define
  by_cases h : isIdentifier name = true
  · rw [if_pos h, Except.ok.injEq]
    simp [h]
  · rw [if_neg h]
    simp [h]

theorem exists_define_iff :
    (∃ next, defines.define name value = .ok next) ↔ isIdentifier name = true := by
  simp only [define_eq_ok_iff, exists_and_left, exists_eq', and_true]

/-- The name that has been set has the value it was set to. -/
theorem lookup_of_define (h : defines.define name value = .ok next) :
    (Scope.ofDefines next).lookup name = some value := by
  obtain ⟨-, rfl⟩ := define_eq_ok_iff.1 h
  show (defines.insert name value).get? name = some value
  rw [Table.get?_insert, if_pos rfl]

end Defines

/-! ## Mentioning a define -/

namespace Expression

variable {lookup other : String → Option Float} {source name : String} {value : Float}

/-- The names that a text mentions. A text that is no expression mentions none. -/
def mentioned (source : String) : List String :=
  match parse source with
  | .ok tree => tree.names
  | .error _ => []

/-- The value of a tree depends on the names in it alone. -/
theorem eval_congr {tree : Expression} (h : ∀ name ∈ tree.names, lookup name = other name) :
    tree.eval lookup = tree.eval other := by
  induction tree with
  | number value => rfl
  | name text => rw [eval, eval, h text (List.mem_singleton_self text)]
  | negate operand ih => rw [eval, eval, ih h]
  | binary operator left right ihl ihr =>
      have hleft := ihl fun name hname => h name (List.mem_append_left _ hname)
      have hright := ihr fun name hname => h name (List.mem_append_right _ hname)
      rw [eval, eval, hleft, hright]

/-- So does the value of a text, or the error in place of it. -/
theorem evaluate_congr (h : ∀ name ∈ mentioned source, lookup name = other name) :
    evaluate lookup source = evaluate other source := by
  unfold mentioned at h
  unfold evaluate
  cases hparse : parse source with
  | error cause => rfl
  | ok tree =>
      rw [hparse] at h
      show (tree.eval lookup >>= _) = tree.eval other >>= _
      rw [eval_congr h]

/-- The value of an identifier is the one that is looked up. -/
theorem evaluate_name (h : isIdentifier name = true) (hlookup : lookup name = some value) :
    evaluate lookup name =
      if value.isFinite then .ok value else .error (.nonFinite name) := by
  refine evaluate_of_eval_ok (parse_eq_name_iff.2 h) ?_
  rw [eval, hlookup]

theorem evaluate_name_of_none (h : isIdentifier name = true) (hnone : lookup name = none) :
    evaluate lookup name = .error (.unknownDefine name) := by
  refine evaluate_of_eval_error (parse_eq_name_iff.2 h) ?_
  rw [eval, hnone]

end Expression

/-! ## Agreement -/

namespace Defines

/-- **One set of names.** A name can be set exactly if it is itself an expression, and exactly if
some expression mentions it, whatever is in the table and whatever the value. Once it is set it
evaluates to its value, or to an error if the value is not finite. -/
theorem define_agrees (defines : Defines) (name : String) (value : Float) :
    ((∃ next, defines.define name value = .ok next) ↔
      Expression.parse name = .ok (.name name)) ∧
    ((∃ next, defines.define name value = .ok next) ↔
      ∃ source tree, Expression.parse source = .ok tree ∧ name ∈ tree.names) ∧
    ∀ next, defines.define name value = .ok next →
      Expression.evaluate (Scope.ofDefines next).lookup name =
        if value.isFinite then .ok value else .error (.nonFinite name) := by
  rw [exists_define_iff]
  refine ⟨Expression.parse_eq_name_iff.symm, ⟨fun h => ?_, ?_⟩, fun next h => ?_⟩
  · exact ⟨name, .name name, Expression.parse_eq_name_iff.2 h, List.mem_singleton_self name⟩
  · rintro ⟨source, tree, hparse, hname⟩
    exact Expression.isIdentifier_of_mem_names hparse hname
  · exact Expression.evaluate_name (define_eq_ok_iff.1 h).1 (lookup_of_define h)

end Defines

end GrowthGrammar
