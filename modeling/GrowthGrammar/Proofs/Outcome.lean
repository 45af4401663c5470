import GrowthGrammar.Text.Blank

/-!
# Computations that may fail

What a computation has done when it has succeeded: every step of it has succeeded. When it has
failed, one step of it has failed, and all steps before that have succeeded.
-/

set_option autoImplicit false

namespace GrowthGrammar.Outcome

variable {ε ε' α β : Type}

theorem exists_of_isSome {x : Except ε α} (h : x.toOption.isSome = true) : ∃ a, x = .ok a := by
  cases x with
  | error e => cases h
  | ok a => exact ⟨a, rfl⟩

/-- A computation that does not succeed fails. -/
theorem exists_of_isNone {x : Except ε α} (h : x.toOption.isNone = true) :
    ∃ e, x = .error e := by
  cases x with
  | error e => exact ⟨e, rfl⟩
  | ok a => cases h

theorem exists_of_map_toOption {x : Except ε α} {f : α → β} {b : β}
    (h : x.toOption.map f = some b) : ∃ a, x = .ok a ∧ f a = b := by
  cases x with
  | error e => cases h
  | ok a => exact ⟨a, rfl, Option.some.inj h⟩

theorem toOption_eq_some_iff {x : Except ε α} {a : α} : x.toOption = some a ↔ x = .ok a := by
  cases x <;> simp [Except.toOption]

/-- A sequence of two steps succeeds when both do. -/
theorem bind_eq_ok_iff {x : Except ε α} {f : α → Except ε β} {b : β} :
    x >>= f = .ok b ↔ ∃ a, x = .ok a ∧ f a = .ok b := by
  cases x with
  | error e =>
      constructor
      · intro h
        cases h
      · rintro ⟨a, ha, -⟩
        cases ha
  | ok a =>
      constructor
      · intro h
        exact ⟨a, rfl, h⟩
      · rintro ⟨a', ha, h⟩
        cases ha
        exact h

/-- A sequence of two steps fails when the first does, or the second after the first. -/
theorem bind_eq_error_iff {x : Except ε α} {f : α → Except ε β} {e : ε} :
    x >>= f = .error e ↔ x = .error e ∨ ∃ a, x = .ok a ∧ f a = .error e := by
  cases x with
  | error e' =>
      constructor
      · intro h
        cases h
        exact .inl rfl
      · rintro (h | ⟨a, ha, -⟩)
        · cases h
          rfl
        · cases ha
  | ok a =>
      constructor
      · intro h
        exact .inr ⟨a, rfl, h⟩
      · rintro (h | ⟨a', ha, h⟩)
        · cases h
        · cases ha
          exact h

theorem map_eq_ok_iff {x : Except ε α} {f : α → β} {b : β} :
    x.map f = .ok b ↔ ∃ a, x = .ok a ∧ f a = b := by
  cases x with
  | error e =>
      constructor
      · intro h
        cases h
      · rintro ⟨a, ha, -⟩
        cases ha
  | ok a =>
      constructor
      · intro h
        exact ⟨a, rfl, Except.ok.inj h⟩
      · rintro ⟨a', ha, rfl⟩
        cases ha
        rfl

theorem map_eq_error_iff {x : Except ε α} {f : α → β} {e : ε} :
    x.map f = .error e ↔ x = .error e := by
  cases x with
  | error e' =>
      constructor
      · intro h
        cases h
        rfl
      · intro h
        cases h
        rfl
  | ok a =>
      constructor
      · intro h
        cases h
      · intro h
        cases h

/-- Rewording the error of a step changes nothing when it succeeds. -/
theorem mapError_eq_ok_iff {x : Except ε α} {f : ε → ε'} {a : α} :
    x.mapError f = .ok a ↔ x = .ok a := by
  cases x with
  | error e =>
      constructor
      · intro h
        cases h
      · intro h
        cases h
  | ok a' =>
      constructor
      · intro h
        cases h
        rfl
      · intro h
        cases h
        rfl

theorem mapError_eq_error_iff {x : Except ε α} {f : ε → ε'} {e : ε'} :
    x.mapError f = .error e ↔ ∃ cause, x = .error cause ∧ f cause = e := by
  cases x with
  | error cause =>
      constructor
      · intro h
        exact ⟨cause, rfl, Except.error.inj h⟩
      · rintro ⟨cause', hcause, rfl⟩
        cases hcause
        rfl
  | ok a =>
      constructor
      · intro h
        cases h
      · rintro ⟨cause, hcause, -⟩
        cases hcause

theorem toOption_mapError {x : Except ε α} {f : ε → ε'} :
    (x.mapError f).toOption = x.toOption := by
  cases x <;> rfl

/-- Steps that do the same on every item do the same on the list. -/
theorem mapM_congr {f g : α → Except ε β} {xs : List α} (h : ∀ x ∈ xs, f x = g x) :
    xs.mapM f = xs.mapM g := by
  induction xs with
  | nil => rfl
  | cons x xs ih =>
      rw [List.forall_mem_cons] at h
      rw [List.mapM_cons, List.mapM_cons, h.1, ih h.2]

/-- A step taken on every item of a list succeeds when it does so each time. -/
theorem mapM_eq_ok_iff {f : α → Except ε β} {xs : List α} {ys : List β} :
    xs.mapM f = .ok ys ↔ xs.map f = ys.map .ok := by
  induction xs generalizing ys with
  | nil =>
      rw [List.mapM_nil, List.map_nil]
      constructor
      · intro h
        cases h
        rfl
      · intro h
        obtain rfl : ys = [] := List.map_eq_nil_iff.1 h.symm
        rfl
  | cons x xs ih =>
      rw [List.mapM_cons, bind_eq_ok_iff, List.map_cons]
      constructor
      · rintro ⟨y, hy, h⟩
        obtain ⟨rest, hrest, hys⟩ := bind_eq_ok_iff.1 h
        cases hys
        rw [hy, ih.1 hrest, List.map_cons]
      · intro h
        cases ys with
        | nil => cases h
        | cons y ys =>
            obtain ⟨hy, hys⟩ := List.cons.inj h
            exact ⟨y, hy, bind_eq_ok_iff.2 ⟨ys, ih.2 hys, rfl⟩⟩

/-- A step taken on every item of a list succeeds when it does so on each, and yields what it yields
on them. -/
theorem mapM_eq_ok_iff_filterMap {f : α → Except ε β} {xs : List α} {ys : List β} :
    xs.mapM f = .ok ys ↔ (∀ x ∈ xs, (f x).toOption.isSome = true) ∧
      xs.filterMap (fun x => (f x).toOption) = ys := by
  induction xs generalizing ys with
  | nil => simp [pure, Except.pure]
  | cons x xs ih =>
      rw [List.mapM_cons, bind_eq_ok_iff, List.forall_mem_cons, List.filterMap_cons]
      constructor
      · rintro ⟨y, hy, h⟩
        obtain ⟨rest, hrest, heq⟩ := bind_eq_ok_iff.1 h
        cases heq
        obtain ⟨hall, rfl⟩ := ih.1 hrest
        rw [hy]
        exact ⟨⟨rfl, hall⟩, rfl⟩
      · rintro ⟨⟨hx, hall⟩, hys⟩
        obtain ⟨y, hy⟩ := exists_of_isSome hx
        rw [hy] at hys
        exact ⟨y, hy, bind_eq_ok_iff.2 ⟨_, ih.2 ⟨hall, rfl⟩, congrArg Except.ok hys⟩⟩

/-- Steps may reword their errors, each in its own way, without changing when they succeed. -/
theorem mapM_mapError_eq_ok_iff {f : α → Except ε β} {g : α → ε → ε'} {xs : List α}
    {ys : List β} :
    xs.mapM (fun x => (f x).mapError (g x)) = .ok ys ↔ xs.map f = ys.map .ok := by
  rw [mapM_eq_ok_iff_filterMap, ← mapM_eq_ok_iff, mapM_eq_ok_iff_filterMap]
  simp only [toOption_mapError]

/-- Every result of a step taken on a list comes from an item. -/
theorem exists_of_mem_mapM {f : α → Except ε β} {xs : List α} {ys : List β}
    (h : xs.mapM f = .ok ys) {y : β} (hy : y ∈ ys) : ∃ x ∈ xs, f x = .ok y := by
  have hmem : Except.ok y ∈ xs.map f := by
    rw [mapM_eq_ok_iff.1 h]
    exact List.mem_map_of_mem hy
  exact List.mem_map.1 hmem

/-- A step taken on every item of a list fails as it does on the first item on which it fails. -/
theorem mapM_eq_error_iff {f : α → Except ε β} {xs : List α} {e : ε} :
    xs.mapM f = .error e ↔ ∃ front x rest, xs = front ++ x :: rest ∧
      (∀ y ∈ front, ∃ b, f y = .ok b) ∧ f x = .error e := by
  induction xs with
  | nil => simp [pure, Except.pure]
  | cons x xs ih =>
      rw [List.mapM_cons, bind_eq_error_iff]
      constructor
      · rintro (hx | ⟨b, hb, h⟩)
        · exact ⟨[], x, xs, rfl, by simp, hx⟩
        · rcases bind_eq_error_iff.1 h with hrest | ⟨bs, -, h⟩
          · obtain ⟨front, y, rest, rfl, hfront, hy⟩ := ih.1 hrest
            refine ⟨x :: front, y, rest, rfl, ?_, hy⟩
            simpa using ⟨⟨b, hb⟩, hfront⟩
          · cases h
      · rintro ⟨front, y, rest, hxs, hfront, hy⟩
        cases front with
        | nil =>
            obtain ⟨rfl, rfl⟩ := List.cons.inj hxs
            exact .inl hy
        | cons z front =>
            obtain ⟨rfl, rfl⟩ := List.cons.inj hxs
            obtain ⟨b, hb⟩ := hfront x List.mem_cons_self
            have hrest := ih.2 ⟨front, y, rest, rfl,
              fun z hz => hfront z (List.mem_cons_of_mem _ hz), hy⟩
            exact .inr ⟨b, hb, bind_eq_error_iff.2 (.inl hrest)⟩

/-- When a step taken on the items of a list fails, it fails on an item. -/
theorem exists_of_mapM_eq_error {f : α → Except ε β} {xs : List α} {e : ε}
    (h : xs.mapM f = .error e) : ∃ x ∈ xs, f x = .error e := by
  obtain ⟨front, x, rest, rfl, -, hx⟩ := mapM_eq_error_iff.1 h
  exact ⟨x, List.mem_append_right front List.mem_cons_self, hx⟩

/-- What every step of a fold keeps, the fold keeps. -/
theorem foldlM_induction {f : β → α → Except ε β} {holds : β → Prop}
    (step : ∀ b a b', f b a = .ok b' → holds b → holds b') {xs : List α} {b b' : β}
    (hb : holds b) (h : xs.foldlM f b = .ok b') : holds b' := by
  induction xs generalizing b with
  | nil =>
      cases h
      exact hb
  | cons x xs ih =>
      rw [List.foldlM_cons] at h
      obtain ⟨next, hnext, h⟩ := bind_eq_ok_iff.1 h
      exact ih (step b x next hnext hb) h

end GrowthGrammar.Outcome
