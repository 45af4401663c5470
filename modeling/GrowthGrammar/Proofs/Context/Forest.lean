import GrowthGrammar.Proofs.Context.Brackets

/-!
# Rows as forests

A row of symbols whose brackets belong together is a forest of symbols and branches (`Forest`). A
row on one side of a letter may in addition close branches that were opened before it; without those
strays (`Side.dropStrays`) it is a forest exactly when every branch that it opens is closed in
it (`Side.ClosesAll`, `closesAll_iff`, `exists_forest`).
-/

set_option autoImplicit false

namespace GrowthGrammar

/-- Whether a symbol opens or closes a branch, from whichever side it is read. -/
def isBracket (symbol : String) : Bool :=
  symbol == "[" || symbol == "]"

/-- A row of symbols that are no brackets, and of branches. -/
inductive Forest where
  | empty
  | leaf (symbol : String) (plain : isBracket symbol = false) (rest : Forest)
  | branch (inside rest : Forest)

/-- A forest as a row of symbols, with the brackets of one side around its branches. -/
def Forest.row (side : Side) : Forest → List String
  | empty => []
  | leaf symbol _ rest => symbol :: rest.row side
  | branch inside rest =>
    side.opening :: (inside.row side ++ side.closing :: rest.row side)

namespace Side

theorem isBracket_eq_false_iff (side : Side) {symbol : String} :
    isBracket symbol = false ↔ symbol ≠ side.opening ∧ symbol ≠ side.closing := by
  cases side <;> simp [isBracket, opening, closing, and_comm]

/-! ## Stray brackets -/

/-- A row without the brackets that close nothing in it, if `depth` brackets are open where it
begins. -/
def dropStrays (side : Side) : Nat → List String → List String
  | _, [] => []
  | depth, symbol :: symbols =>
    if symbol = side.opening then symbol :: side.dropStrays (depth + 1) symbols
    else if symbol = side.closing then
      match depth with
      | 0 => side.dropStrays 0 symbols
      | depth + 1 => symbol :: side.dropStrays depth symbols
    else symbol :: side.dropStrays depth symbols

section DropStrays

variable {side : Side} {depth : Nat} {symbol : String} {symbols : List String}

@[simp] theorem dropStrays_nil : side.dropStrays depth [] = [] := by
  rw [dropStrays.eq_def]

@[simp] theorem dropStrays_opening :
    side.dropStrays depth (side.opening :: symbols) =
      side.opening :: side.dropStrays (depth + 1) symbols := by
  rw [dropStrays.eq_def]
  simp only [if_pos]

@[simp] theorem dropStrays_closing_zero :
    side.dropStrays 0 (side.closing :: symbols) = side.dropStrays 0 symbols := by
  rw [dropStrays.eq_def]
  simp only [if_neg side.opening_ne_closing.symm, if_pos]

@[simp] theorem dropStrays_closing_succ :
    side.dropStrays (depth + 1) (side.closing :: symbols) =
      side.closing :: side.dropStrays depth symbols := by
  rw [dropStrays.eq_def]
  simp only [if_neg side.opening_ne_closing.symm, if_pos]

theorem dropStrays_plain (hopening : symbol ≠ side.opening) (hclosing : symbol ≠ side.closing) :
    side.dropStrays depth (symbol :: symbols) = symbol :: side.dropStrays depth symbols := by
  rw [dropStrays.eq_def]
  simp only [if_neg hopening, if_neg hclosing]

/-- While a branch is open nothing is dropped. -/
theorem exists_cons_of_dropStrays_succ {rest : List String}
    (h : side.dropStrays (depth + 1) symbols = symbol :: rest) :
    ∃ behind, symbols = symbol :: behind := by
  cases symbols with
  | nil =>
      rw [dropStrays_nil] at h
      cases h
  | cons first behind =>
      rcases side.bracket_cases first with rfl | rfl | ⟨hopening, hclosing⟩
      · rw [dropStrays_opening] at h
        exact ⟨behind, by rw [(List.cons.inj h).1]⟩
      · rw [dropStrays_closing_succ] at h
        exact ⟨behind, by rw [(List.cons.inj h).1]⟩
      · rw [dropStrays_plain hopening hclosing] at h
        exact ⟨behind, by rw [(List.cons.inj h).1]⟩

/-- Outside of all branches the first symbol that stays may have strays before it. -/
theorem exists_strays_of_dropStrays_zero {rest : List String}
    (h : side.dropStrays 0 symbols = symbol :: rest) :
    ∃ count behind, symbols = List.replicate count side.closing ++ symbol :: behind ∧
      side.dropStrays 0 (symbol :: behind) = symbol :: rest := by
  induction symbols with
  | nil =>
      rw [dropStrays_nil] at h
      cases h
  | cons first behind ih =>
      rcases side.bracket_cases first with rfl | rfl | ⟨hopening, hclosing⟩
      · have hfirst := h
        rw [dropStrays_opening] at hfirst
        rw [(List.cons.inj hfirst).1] at h ⊢
        exact ⟨0, behind, rfl, h⟩
      · rw [dropStrays_closing_zero] at h
        obtain ⟨count, found, rfl, hfound⟩ := ih h
        exact ⟨count + 1, found, rfl, hfound⟩
      · have hfirst := h
        rw [dropStrays_plain hopening hclosing] at hfirst
        rw [(List.cons.inj hfirst).1] at h ⊢
        exact ⟨0, behind, rfl, h⟩

/-- What is read inside a branch stands in the row as it is. -/
theorem exists_append_of_dropStrays (inside : Forest) {rest : List String}
    (h : side.dropStrays (depth + 1) symbols = inside.row side ++ rest) :
    ∃ behind, symbols = inside.row side ++ behind ∧ side.dropStrays (depth + 1) behind = rest := by
  induction inside generalizing depth symbols rest with
  | empty => exact ⟨symbols, rfl, h⟩
  | leaf symbol plain inside ih =>
      obtain ⟨hopening, hclosing⟩ := side.isBracket_eq_false_iff.1 plain
      obtain ⟨behind, rfl⟩ := exists_cons_of_dropStrays_succ h
      rw [dropStrays_plain hopening hclosing] at h
      obtain ⟨found, rfl, hfound⟩ := ih (List.cons.inj h).2
      exact ⟨found, rfl, hfound⟩
  | branch inner inside ihinner ih =>
      obtain ⟨behind, rfl⟩ := exists_cons_of_dropStrays_succ h
      rw [dropStrays_opening] at h
      -- first to the end of the inner branch, which stays, and then behind it
      have hinner : side.dropStrays (depth + 1 + 1) behind =
          inner.row side ++ side.closing :: (inside.row side ++ rest) := by
        simpa [Forest.row] using (List.cons.inj h).2
      obtain ⟨close, rfl, hclose⟩ := ihinner hinner
      obtain ⟨behind, rfl⟩ := exists_cons_of_dropStrays_succ hclose
      rw [dropStrays_closing_succ] at hclose
      obtain ⟨found, rfl, hfound⟩ := ih (List.cons.inj hclose).2
      exact ⟨found, by simp [Forest.row], hfound⟩

/-- A forest that begins with a symbol is read from a row that has the symbol behind its strays. -/
theorem exists_leaf_of_dropStrays {plain : isBracket symbol = false} {rest : Forest}
    (h : (Forest.leaf symbol plain rest).row side = side.dropStrays 0 symbols) :
    ∃ count behind, symbols = List.replicate count side.closing ++ symbol :: behind ∧
      rest.row side = side.dropStrays 0 behind := by
  obtain ⟨hopening, hclosing⟩ := side.isBracket_eq_false_iff.1 plain
  obtain ⟨count, behind, rfl, hbehind⟩ := exists_strays_of_dropStrays_zero h.symm
  rw [dropStrays_plain hopening hclosing] at hbehind
  exact ⟨count, behind, rfl, (List.cons.inj hbehind).2.symm⟩

/-- A forest that begins with a branch is read from a row that has the branch behind its strays. -/
theorem exists_branch_of_dropStrays {inside rest : Forest}
    (h : (Forest.branch inside rest).row side = side.dropStrays 0 symbols) :
    ∃ count behind, symbols = List.replicate count side.closing ++
        side.opening :: (inside.row side ++ side.closing :: behind) ∧
      rest.row side = side.dropStrays 0 behind := by
  obtain ⟨count, behind, rfl, hbehind⟩ := exists_strays_of_dropStrays_zero h.symm
  rw [dropStrays_opening] at hbehind
  obtain ⟨close, rfl, hclose⟩ := exists_append_of_dropStrays inside (List.cons.inj hbehind).2
  obtain ⟨behind, rfl⟩ := exists_cons_of_dropStrays_succ hclose
  rw [dropStrays_closing_succ] at hclose
  exact ⟨count, behind, rfl, (List.cons.inj hclose).2.symm⟩

end DropStrays

/-! ## Rows that close what they open -/

/-- Every branch that the row opens is closed in it. -/
def ClosesAll (side : Side) (symbols : List String) : Prop :=
  ∀ first, symbols[first]? = some side.opening → ∃ last, side.IsPair symbols first last

/-- So is each of the innermost `depth` branches that are open where the row begins. -/
def ClosesAllFrom (side : Side) (depth : Nat) (symbols : List String) : Prop :=
  side.ClosesAll symbols ∧ ∀ k < depth, ∃ index, side.Closes k symbols index

section ClosesAll

variable {side : Side} {depth : Nat} {symbol : String} {symbols : List String}

theorem closesAllFrom_zero : side.ClosesAllFrom 0 symbols ↔ side.ClosesAll symbols := by
  constructor
  · exact And.left
  · intro h
    exact ⟨h, fun k hk => absurd hk (Nat.not_lt_zero k)⟩

/-- A bracket in front closes its branch in the rest of the row, and the other pairs are those of
the rest. -/
theorem closesAll_cons :
    side.ClosesAll (symbol :: symbols) ↔
      (symbol = side.opening → ∃ index, side.Closes 0 symbols index) ∧ side.ClosesAll symbols := by
  have hlast {first last : Nat} (h : side.IsPair (symbol :: symbols) first last) :
      ∃ before, last = before + 1 := ⟨last - 1, by have := h.lt; omega⟩
  constructor
  · intro h
    refine ⟨?_, ?_⟩
    · rintro rfl
      obtain ⟨last, hpair⟩ := h 0 rfl
      obtain ⟨index, rfl⟩ := hlast hpair
      exact ⟨index, (isPair_zero.1 hpair).2⟩
    · intro first hfirst
      obtain ⟨last, hpair⟩ := h (first + 1) hfirst
      obtain ⟨last, rfl⟩ := hlast hpair
      exact ⟨last, isPair_succ.1 hpair⟩
  · rintro ⟨hfront, hrest⟩ first hfirst
    cases first with
    | zero =>
        obtain rfl := Option.some.inj hfirst
        obtain ⟨index, hindex⟩ := hfront rfl
        exact ⟨index + 1, isPair_zero.2 ⟨rfl, hindex⟩⟩
    | succ first =>
        obtain ⟨last, hpair⟩ := hrest first hfirst
        exact ⟨last + 1, isPair_succ.2 hpair⟩

/-- A symbol that is no closing bracket closes none of the open branches itself. -/
theorem exists_closes_cons {k next : Nat} (hclosing : symbol ≠ side.closing)
    (h : ∀ index, side.Closes k (symbol :: symbols) (index + 1) ↔
      side.Closes next symbols index) :
    (∃ index, side.Closes k (symbol :: symbols) index) ↔
      ∃ index, side.Closes next symbols index := by
  constructor
  · rintro ⟨index, hindex⟩
    cases index with
    | zero => exact absurd (closes_zero.1 hindex).1 hclosing
    | succ index => exact ⟨index, (h index).1 hindex⟩
  · rintro ⟨index, hindex⟩
    exact ⟨index + 1, (h index).2 hindex⟩

theorem closesAllFrom_nil : side.ClosesAllFrom depth [] ↔ depth = 0 := by
  constructor
  · rintro ⟨-, hcloses⟩
    cases depth with
    | zero => rfl
    | succ depth =>
        obtain ⟨_, inside, rest, hnil, -⟩ := hcloses 0 (Nat.succ_pos depth)
        simp at hnil
  · rintro rfl
    exact closesAllFrom_zero.2 fun first hfirst => by simp at hfirst

theorem closesAllFrom_opening :
    side.ClosesAllFrom depth (side.opening :: symbols) ↔ side.ClosesAllFrom (depth + 1) symbols := by
  have hshift (k : Nat) : (∃ index, side.Closes k (side.opening :: symbols) index) ↔
      ∃ index, side.Closes (k + 1) symbols index :=
    exists_closes_cons side.opening_ne_closing fun _ => closes_opening
  unfold ClosesAllFrom
  rw [closesAll_cons]
  constructor
  · rintro ⟨⟨hfront, hrest⟩, hcloses⟩
    refine ⟨hrest, fun k hk => ?_⟩
    -- the branch that is opened here is the innermost one of the rest
    cases k with
    | zero => exact hfront rfl
    | succ k => exact (hshift k).1 (hcloses k (Nat.lt_of_succ_lt_succ hk))
  · rintro ⟨hrest, hcloses⟩
    refine ⟨⟨fun _ => hcloses 0 (Nat.succ_pos depth), hrest⟩, fun k hk => ?_⟩
    exact (hshift k).2 (hcloses (k + 1) (Nat.succ_lt_succ hk))

theorem closesAllFrom_plain (hopening : symbol ≠ side.opening) (hclosing : symbol ≠ side.closing) :
    side.ClosesAllFrom depth (symbol :: symbols) ↔ side.ClosesAllFrom depth symbols := by
  have hshift (k : Nat) : (∃ index, side.Closes k (symbol :: symbols) index) ↔
      ∃ index, side.Closes k symbols index :=
    exists_closes_cons hclosing fun _ => closes_plain hopening hclosing
  unfold ClosesAllFrom
  rw [closesAll_cons]
  simp only [hopening, false_implies, true_and, hshift]

theorem closesAllFrom_closing :
    side.ClosesAllFrom depth (side.closing :: symbols) ↔
      side.ClosesAllFrom (depth - 1) symbols := by
  unfold ClosesAllFrom
  rw [closesAll_cons]
  simp only [side.opening_ne_closing.symm, false_implies, true_and]
  refine and_congr_right fun _ => ?_
  constructor
  · intro hcloses k hk
    obtain ⟨index, hindex⟩ := hcloses (k + 1) (by omega)
    cases index with
    | zero => exact absurd (closes_zero.1 hindex).2 (Nat.succ_ne_zero k)
    | succ index => exact ⟨index, closes_closing.1 hindex⟩
  · intro hcloses k hk
    cases k with
    | zero => exact ⟨0, closes_zero.2 ⟨rfl, rfl⟩⟩
    | succ k =>
        obtain ⟨index, hindex⟩ := hcloses k (by omega)
        exact ⟨index + 1, closes_closing.2 hindex⟩

/-- What such a row closes and what it opens belong together once its strays are dropped. -/
theorem closesAllFrom_iff :
    side.ClosesAllFrom depth symbols ↔
      side.level depth (side.dropStrays depth symbols) = some 0 := by
  induction symbols generalizing depth with
  | nil => rw [closesAllFrom_nil, dropStrays_nil, level_nil, Option.some.injEq]
  | cons symbol symbols ih =>
      rcases side.bracket_cases symbol with rfl | rfl | ⟨hopening, hclosing⟩
      · rw [closesAllFrom_opening, dropStrays_opening, level_opening, ih]
      · rw [closesAllFrom_closing, ih]
        cases depth with
        | zero => rw [dropStrays_closing_zero]
        | succ depth => rw [dropStrays_closing_succ, level_closing_succ, Nat.add_sub_cancel]
      · rw [closesAllFrom_plain hopening hclosing, dropStrays_plain hopening hclosing,
          level_plain hopening hclosing, ih]

instance : Decidable (side.ClosesAllFrom depth symbols) :=
  decidable_of_iff _ closesAllFrom_iff.symm

/-- A row closes what it opens exactly when it is balanced without its strays. -/
theorem closesAll_iff : side.ClosesAll symbols ↔ side.IsBalanced (side.dropStrays 0 symbols) :=
  closesAllFrom_zero.symm.trans closesAllFrom_iff

instance : Decidable (side.ClosesAll symbols) :=
  decidable_of_iff _ closesAll_iff.symm

end ClosesAll

/-! ## Reading a forest -/

/-- Forests behind each other, with a closing bracket between each two. -/
def layers (side : Side) (here : Forest) : List Forest → List String
  | [] => here.row side
  | behind :: outer => here.row side ++ side.closing :: side.layers behind outer

/-- A row that closes the branches that are open where it begins is one forest in each of them and
one behind them. -/
theorem exists_layers {side : Side} {depth : Nat} {symbols : List String}
    (h : side.level depth symbols = some 0) :
    ∃ here outer, outer.length = depth ∧ side.layers here outer = symbols := by
  induction symbols generalizing depth with
  | nil =>
      rw [level_nil] at h
      exact ⟨.empty, [], (Option.some.inj h).symm, rfl⟩
  | cons symbol symbols ih =>
      rcases side.bracket_cases symbol with rfl | rfl | ⟨hopening, hclosing⟩
      · rw [level_opening] at h
        obtain ⟨here, outer, hlength, rfl⟩ := ih h
        -- the first forest behind the bracket is the inside of its branch
        cases outer with
        | nil => cases hlength
        | cons behind outer =>
            refine ⟨.branch here behind, outer, Nat.succ.inj hlength, ?_⟩
            cases outer <;> simp [layers, Forest.row]
      · cases depth with
        | zero =>
            rw [level_closing_zero] at h
            cases h
        | succ depth =>
            rw [level_closing_succ] at h
            obtain ⟨here, outer, rfl, rfl⟩ := ih h
            exact ⟨.empty, here :: outer, rfl, rfl⟩
      · rw [level_plain hopening hclosing] at h
        obtain ⟨here, outer, rfl, rfl⟩ := ih h
        refine ⟨.leaf symbol (side.isBracket_eq_false_iff.2 ⟨hopening, hclosing⟩) here, outer,
          rfl, ?_⟩
        cases outer <;> rfl

/-- **A balanced row is a forest.** -/
theorem exists_forest {side : Side} {symbols : List String} (h : side.IsBalanced symbols) :
    ∃ forest : Forest, forest.row side = symbols := by
  obtain ⟨here, outer, hlength, rfl⟩ := exists_layers h
  obtain rfl := List.length_eq_zero_iff.1 hlength
  exact ⟨here, rfl⟩

end Side

end GrowthGrammar
