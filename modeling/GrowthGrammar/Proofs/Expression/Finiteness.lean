import GrowthGrammar.Expression.Reading
import GrowthGrammar.Proofs.Double.Finite
import GrowthGrammar.Proofs.Outcome

/-!
# Where an expression leaves the finite numbers

Only the value of a whole expression is asked to be finite. That is enough to notice a division by
zero or a part out of range anywhere inside, except where a finite number is divided by an infinite
one: the quotient is a zero, and the infinity is gone (`exists_value_through_infinity`). Without such
a division every fault inside reaches the whole expression and is reported
(`evaluate_reports_fault`).
-/

set_option autoImplicit false

namespace GrowthGrammar.Expression

/-! ## Parts of an expression -/

/-- The parts of an expression, itself among them. -/
def parts : Expression → List Expression
  | .number value => [.number value]
  | .name text => [.name text]
  | .negate operand => .negate operand :: operand.parts
  | .binary operator left right =>
    .binary operator left right :: (left.parts ++ right.parts)

theorem mem_parts_self (e : Expression) : e ∈ e.parts := by
  cases e <;> exact List.mem_cons_self

theorem parts_subset {part e : Expression} (h : part ∈ e.parts) : part.parts ⊆ e.parts := by
  induction e with
  | number value =>
      obtain rfl := List.mem_singleton.1 h
      exact List.Subset.refl _
  | name text =>
      obtain rfl := List.mem_singleton.1 h
      exact List.Subset.refl _
  | negate operand ih =>
      rcases List.mem_cons.1 h with rfl | h
      · exact List.Subset.refl _
      · exact List.subset_cons_of_subset _ (ih h)
  | binary operator left right ihl ihr =>
      rcases List.mem_cons.1 h with rfl | h
      · exact List.Subset.refl _
      · refine List.subset_cons_of_subset _ ?_
        rcases List.mem_append.1 h with h | h
        · exact List.subset_append_of_subset_left _ (ihl h)
        · exact List.subset_append_of_subset_right _ (ihr h)

section Binary

variable (operator : Operator) (left right : Expression)

theorem left_mem_parts : left ∈ (binary operator left right).parts :=
  List.mem_cons_of_mem _ (List.mem_append_left _ (mem_parts_self left))

theorem right_mem_parts : right ∈ (binary operator left right).parts :=
  List.mem_cons_of_mem _ (List.mem_append_right _ (mem_parts_self right))

end Binary

variable {lookup : String → Option Float}

/-- Some divisor in the expression is a zero. -/
def DividesByZero (lookup : String → Option Float) (e : Expression) : Prop :=
  ∃ left right y, .binary .divide left right ∈ e.parts ∧
    right.eval lookup = .ok y ∧ (y == 0) = true

/-- Some part of the expression has a value that is not finite. -/
def LeavesRange (lookup : String → Option Float) (e : Expression) : Prop :=
  ∃ part value, part ∈ e.parts ∧ part.eval lookup = .ok value ∧ value.isFinite = false

/-- Some division in the expression is one of a finite number by an infinite one. -/
def DividesByInfinity (lookup : String → Option Float) (e : Expression) : Prop :=
  ∃ left right x y, .binary .divide left right ∈ e.parts ∧
    left.eval lookup = .ok x ∧ x.isFinite = true ∧ right.eval lookup = .ok y ∧ y.isInf = true

theorem DividesByInfinity.of_part {part e : Expression} (h : DividesByInfinity lookup part)
    (hpart : part ∈ e.parts) : DividesByInfinity lookup e := by
  obtain ⟨left, right, x, y, hmem, hdivision⟩ := h
  exact ⟨left, right, x, y, parts_subset hpart hmem, hdivision⟩

/-! ## Values of the parts -/

theorem eval_negate_eq_ok_iff {operand : Expression} {value : Float} :
    (negate operand).eval lookup = .ok value ↔ ∃ x, operand.eval lookup = .ok x ∧ -x = value := by
  simp only [eval, Outcome.bind_eq_ok_iff, pure, Except.pure, Except.ok.injEq]

theorem eval_binary_eq_ok_iff {operator : Operator} {left right : Expression} {value : Float} :
    (binary operator left right).eval lookup = .ok value ↔
      ∃ x y, left.eval lookup = .ok x ∧ right.eval lookup = .ok y ∧
        operator.apply x y = value := by
  simp only [eval, Outcome.bind_eq_ok_iff, pure, Except.pure, Except.ok.injEq, exists_and_left]

/-- What a finite result says of the operands: the first one is finite, and so is the second one,
unless it is the infinite divisor of a quotient. -/
theorem isFinite_operands {operator : Operator} {x y : Float}
    (h : (operator.apply x y).isFinite = true) :
    x.isFinite = true ∧ (y.isFinite = true ∨ operator = .divide ∧ y.isInf = true) := by
  cases operator with
  | add => exact (Double.isFinite_of_sum h).imp_right .inl
  | subtract => exact (Double.isFinite_of_difference h).imp_right .inl
  | multiply => exact (Double.isFinite_of_product h).imp_right .inl
  | divide =>
      obtain ⟨hx, hy, -⟩ := Double.isFinite_of_quotient h
      exact ⟨hx, hy.imp_right fun hinf => ⟨rfl, hinf⟩⟩

/-- Without a division by an infinity, a finite value has been computed from finite values alone. -/
theorem exists_isFinite_of_mem_parts {e part : Expression} {value : Float}
    (hclean : ¬DividesByInfinity lookup e) (heval : e.eval lookup = .ok value)
    (hfinite : value.isFinite = true) (hpart : part ∈ e.parts) :
    ∃ x, part.eval lookup = .ok x ∧ x.isFinite = true := by
  induction e generalizing value with
  | number n =>
      obtain rfl := List.mem_singleton.1 hpart
      exact ⟨value, heval, hfinite⟩
  | name text =>
      obtain rfl := List.mem_singleton.1 hpart
      exact ⟨value, heval, hfinite⟩
  | negate operand ih =>
      rcases List.mem_cons.1 hpart with rfl | hpart
      · exact ⟨value, heval, hfinite⟩
      · obtain ⟨x, hx, rfl⟩ := eval_negate_eq_ok_iff.1 heval
        have hmem : operand ∈ (negate operand).parts :=
          List.mem_cons_of_mem _ (mem_parts_self operand)
        exact ih (fun h => hclean (h.of_part hmem)) hx (Double.isFinite_of_negate hfinite) hpart
  | binary operator left right ihl ihr =>
      rcases List.mem_cons.1 hpart with rfl | hpart
      · exact ⟨value, heval, hfinite⟩
      · obtain ⟨x, y, hx, hy, rfl⟩ := eval_binary_eq_ok_iff.1 heval
        obtain ⟨hleft, hright⟩ := isFinite_operands hfinite
        rcases List.mem_append.1 hpart with hpart | hpart
        · exact ihl (fun h => hclean (h.of_part (left_mem_parts _ _ _))) hx hleft hpart
        · refine ihr (fun h => hclean (h.of_part (right_mem_parts _ _ _))) hy ?_ hpart
          -- an infinite divisor would be hidden by the quotient
          refine hright.resolve_right ?_
          rintro ⟨rfl, hinf⟩
          exact hclean ⟨left, right, x, y, mem_parts_self _, hx, hleft, hy, hinf⟩

/-! ## Faults that are reported -/

/-- An expression is at fault if it divides by zero or leaves the finite numbers anywhere. -/
def IsFaulty (lookup : String → Option Float) (e : Expression) : Prop :=
  DividesByZero lookup e ∨ LeavesRange lookup e

theorem isFaulty_of_dividesByInfinity {e : Expression} (h : DividesByInfinity lookup e) :
    IsFaulty lookup e := by
  obtain ⟨left, right, x, y, hmem, -, -, hy, hinf⟩ := h
  exact .inr ⟨right, y, parts_subset hmem (right_mem_parts _ _ _), hy,
    Double.isFinite_eq_false_of_isInf hinf⟩

/-- The value of a faulty expression is not finite, unless a division by an infinity hides the
fault. -/
theorem not_isFinite_of_isFaulty {e : Expression} {value : Float} (hfault : IsFaulty lookup e)
    (hclean : ¬DividesByInfinity lookup e) (heval : e.eval lookup = .ok value) :
    value.isFinite = false := by
  by_contra hne
  have hfinite : value.isFinite = true := by simpa using hne
  rcases hfault with ⟨left, right, y, hmem, hy, hzero⟩ | ⟨part, x, hmem, hx, hx'⟩
  · obtain ⟨quotient, hquotient, hfinite⟩ :=
      exists_isFinite_of_mem_parts hclean heval hfinite hmem
    obtain ⟨x, y', hx, hy', rfl⟩ := eval_binary_eq_ok_iff.1 hquotient
    cases hy.symm.trans hy'
    have hne := (Double.isFinite_of_quotient hfinite).2.2
    rw [hzero] at hne
    cases hne
  · obtain ⟨x', heq, hfinite⟩ := exists_isFinite_of_mem_parts hclean heval hfinite hmem
    cases hx.symm.trans heq
    rw [hx'] at hfinite
    cases hfinite

/-- **Faults are reported.** Whatever the names stand for, a text whose tree divides by zero or
leaves the finite numbers in any of its parts evaluates to an error, the one of a name without a
value or else that the result is not finite, unless a finite number is divided by an infinite one. A
text without such a fault has the value of its tree, and one that has a value has a fault exactly
if it divides by an infinity. -/
theorem evaluate_reports_fault {source : String} {tree : Expression}
    (lookup : String → Option Float) (hparse : parse source = .ok tree) :
    (IsFaulty lookup tree → ¬DividesByInfinity lookup tree →
      ∃ cause, evaluate lookup source = .error cause ∧
        (cause = .nonFinite source ∨ tree.eval lookup = .error cause)) ∧
    (¬IsFaulty lookup tree → evaluate lookup source = tree.eval lookup) ∧
    ∀ value, evaluate lookup source = .ok value →
      (IsFaulty lookup tree ↔ DividesByInfinity lookup tree) := by
  cases heval : tree.eval lookup with
  | error cause =>
      have herror := evaluate_of_eval_error hparse heval
      refine ⟨fun _ _ => ⟨cause, herror, .inr rfl⟩, fun _ => herror, fun value hvalue => ?_⟩
      rw [herror] at hvalue
      cases hvalue
  | ok value =>
      rw [evaluate_of_eval_ok hparse heval]
      refine ⟨fun hfault hclean => ?_, fun hsound => if_pos ?_, fun result hresult => ?_⟩
      · rw [not_isFinite_of_isFaulty hfault hclean heval]
        exact ⟨.nonFinite source, rfl, .inl rfl⟩
      · by_contra hinfinite
        exact hsound (.inr ⟨tree, value, mem_parts_self tree, heval, by simpa using hinfinite⟩)
      · refine ⟨fun hfault => ?_, isFaulty_of_dividesByInfinity⟩
        by_contra hclean
        rw [not_isFinite_of_isFaulty hfault hclean heval] at hresult
        cases hresult

/-- A division by zero next to a sum is reported. -/
theorem evaluate_reports_fault_in_sum :
    ∃ cause, evaluate (fun _ => none) "2+1/0" = .error cause := by
  have hparse : parse "2+1/0" =
      .ok (.binary .add (.number 2) (.binary .divide (.number 1) (.number 0))) := by
    decide +kernel
  have hmem : .binary .divide (.number 1) (.number 0) ∈
      (binary .add (.number 2) (.binary .divide (.number 1) (.number 0))).parts :=
    right_mem_parts _ _ _
  have hfault : IsFaulty (fun _ => none)
      (.binary .add (.number 2) (.binary .divide (.number 1) (.number 0))) :=
    .inl ⟨.number 1, .number 0, 0, hmem, rfl, by decide +kernel⟩
  have hclean : ¬DividesByInfinity (fun _ => none)
      (.binary .add (.number 2) (.binary .divide (.number 1) (.number 0))) := by
    rintro ⟨left, right, x, y, hmem, -, -, hy, hinf⟩
    simp only [parts, List.mem_cons, List.mem_append, reduceCtorEq, false_or, or_false,
      List.not_mem_nil, binary.injEq, false_and, true_and] at hmem
    obtain ⟨-, rfl⟩ := hmem
    cases hy
    revert hinf
    decide +kernel
  obtain ⟨cause, hcause, -⟩ := (evaluate_reports_fault (fun _ => none) hparse).1 hfault hclean
  exact ⟨cause, hcause⟩

/-- One divided by an infinite quotient is zero: the division by zero inside is not reported. -/
theorem exists_value_through_infinity :
    ∃ tree, parse "1/(1/0)" = .ok tree ∧ DividesByZero (fun _ => none) tree ∧
      LeavesRange (fun _ => none) tree ∧ evaluate (fun _ => none) "1/(1/0)" = .ok 0 := by
  have hmem : .binary .divide (.number 1) (.number 0) ∈
      (binary .divide (.number 1) (.binary .divide (.number 1) (.number 0))).parts :=
    right_mem_parts _ _ _
  refine ⟨.binary .divide (.number 1) (.binary .divide (.number 1) (.number 0)), ?_, ?_, ?_, ?_⟩
  · decide +kernel
  · exact ⟨.number 1, .number 0, 0, hmem, rfl, by decide +kernel⟩
  · exact ⟨_, 1 / 0, hmem, rfl, by decide +kernel⟩
  · decide +kernel

end GrowthGrammar.Expression
