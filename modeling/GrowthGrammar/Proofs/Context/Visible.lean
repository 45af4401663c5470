import GrowthGrammar.Proofs.Context.Branches
import GrowthGrammar.Proofs.Context.Walk

/-!
# Patterns without brackets

A pattern without brackets sees only the symbols that stand outside of every branch opened on the way
(`Side.visible`). It matches exactly when it can be found among them, in order, with nothing but
ignored symbols in between (`matchesContext_iff_occurs`). The walk takes the first symbol that it
can and never goes back; that loses nothing, because a symbol that it takes too early is an ignored
one, and could have been passed as well.
-/

set_option autoImplicit false

namespace GrowthGrammar

open Trail

/-! ## Visible symbols -/

namespace Side

/-- The symbols that stand outside of all branches, if `depth` branches are open where the row
begins. -/
def visibleFrom (side : Side) (depth : Nat) (symbols : List String) : List String :=
  (symbols.zipIdx.filter fun (symbol, position) =>
    !isBracket symbol && decide (side.ClosesAllFrom depth (symbols.take position))).map Prod.fst

/-- The symbols of a row that are no brackets and before which every branch that the row opens is
closed. Brackets that close nothing do not matter, and behind a branch that is never closed nothing
is visible. -/
def visible (side : Side) (symbols : List String) : List String :=
  (symbols.zipIdx.filter fun (symbol, position) =>
    !isBracket symbol && decide (side.ClosesAll (symbols.take position))).map Prod.fst

section Visible

variable {side : Side} {depth : Nat} {symbol : String} {symbols : List String}

theorem visibleFrom_zero : side.visibleFrom 0 symbols = side.visible symbols := by
  simp only [visibleFrom, visible, closesAllFrom_zero]

@[simp] theorem visibleFrom_nil : side.visibleFrom depth [] = [] := rfl

/-- The first symbol is visible if no branch is open, and the others as they are behind it. -/
theorem visibleFrom_cons {next : Nat}
    (h : ∀ front, side.ClosesAllFrom depth (symbol :: front) ↔ side.ClosesAllFrom next front) :
    side.visibleFrom depth (symbol :: symbols) =
      (if isBracket symbol = false ∧ depth = 0 then [symbol] else []) ++
        side.visibleFrom next symbols := by
  have hhead : side.ClosesAllFrom depth [] ↔ depth = 0 := closesAllFrom_nil
  unfold visibleFrom
  rw [List.zipIdx_cons, List.zipIdx_succ, List.filter_cons, List.filter_map]
  simp only [Function.comp_def, List.take_zero, List.take_succ_cons, h, hhead]
  by_cases hplain : isBracket symbol = false <;> by_cases hdepth : depth = 0 <;>
    simp [hplain, hdepth, Function.comp_def]

@[simp] theorem visibleFrom_opening :
    side.visibleFrom depth (side.opening :: symbols) = side.visibleFrom (depth + 1) symbols := by
  have hbracket : ¬isBracket side.opening = false := fun h =>
    (side.isBracket_eq_false_iff.1 h).1 rfl
  rw [visibleFrom_cons fun _ => closesAllFrom_opening, if_neg fun h => hbracket h.1,
    List.nil_append]

@[simp] theorem visibleFrom_closing :
    side.visibleFrom depth (side.closing :: symbols) = side.visibleFrom (depth - 1) symbols := by
  have hbracket : ¬isBracket side.closing = false := fun h =>
    (side.isBracket_eq_false_iff.1 h).2 rfl
  rw [visibleFrom_cons fun _ => closesAllFrom_closing, if_neg fun h => hbracket h.1,
    List.nil_append]

theorem visibleFrom_plain (hplain : isBracket symbol = false) :
    side.visibleFrom depth (symbol :: symbols) =
      if depth = 0 then symbol :: side.visibleFrom 0 symbols else side.visibleFrom depth symbols := by
  obtain ⟨hopening, hclosing⟩ := side.isBracket_eq_false_iff.1 hplain
  rw [visibleFrom_cons fun _ => closesAllFrom_plain hopening hclosing]
  by_cases hdepth : depth = 0 <;> simp [hplain, hdepth]

theorem isBracket_of_mem_visible (h : symbol ∈ side.visible symbols) :
    isBracket symbol = false := by
  obtain ⟨⟨symbol, position⟩, hmem, rfl⟩ := List.mem_map.1 h
  simpa using (Bool.and_eq_true_iff.1 (List.mem_filter.1 hmem).2).1

end Visible

end Side

/-! ## What the walk sees -/

/-- **The walk sees visible symbols only.** It walks a row as if it were the visible part of it. -/
theorem walk_eq_walk_visibleFrom (side : Side) (ignored : String → Bool) (depth : Nat)
    (symbols pattern : List String) (hpattern : ∀ wanted ∈ pattern, isBracket wanted = false) :
    walk side ignored ⟨depth, []⟩ symbols pattern =
      walk side ignored {} (side.visibleFrom depth symbols) pattern := by
  induction symbols generalizing depth pattern with
  | nil => cases pattern <;> rfl
  | cons symbol symbols ih =>
      cases pattern with
      | nil => rw [walk_nil, walk_nil]
      | cons wanted pattern =>
          obtain ⟨hopening, hclosing⟩ :=
            side.isBracket_eq_false_iff.1 (hpattern wanted List.mem_cons_self)
          rcases side.bracket_cases symbol with rfl | rfl | hplain
          · rw [walk_pass (.inl hopening.symm), Side.visibleFrom_opening, ← ih _ _ hpattern]
            rfl
          · rw [walk_leave (.inl hclosing.symm), Side.visibleFrom_closing, ← ih _ _ hpattern]
            rfl
          · have hplain := side.isBracket_eq_false_iff.2 hplain
            rw [Side.visibleFrom_plain hplain]
            cases depth with
            | zero =>
                rw [if_pos rfl]
                by_cases hwanted : symbol = wanted
                · subst hwanted
                  rw [walk_meet hplain rfl, walk_meet hplain rfl]
                  exact ih _ _ fun w hw => hpattern w (List.mem_cons_of_mem _ hw)
                · rw [walk_unmet hplain (.inl hwanted), walk_unmet hplain (.inl hwanted),
                    ih _ _ hpattern]
            | succ depth =>
                rw [if_neg (Nat.succ_ne_zero depth), walk_untracked hplain rfl, ih _ _ hpattern]

/-! ## Where a pattern occurs -/

/-- The symbols of a pattern are met at these offsets of a row, and every symbol that is passed
before the last of them is ignored. -/
structure OccursAt (ignored : String → Bool) (symbols pattern : List String)
    (offsets : List Nat) : Prop where
  meets : MeetsAll symbols pattern offsets
  passes : ∀ p q : Nat, q ∈ offsets → p < q → p ∉ offsets → ∀ symbol : String,
    symbols[p]? = some symbol → ignored symbol = true

section OccursAt

variable {ignored : String → Bool} {symbol wanted : String} {symbols pattern : List String}
  {offsets : List Nat}

theorem occursAt_nil : OccursAt ignored symbols [] [] :=
  ⟨⟨rfl, .nil, by simp⟩, by simp⟩

/-- A first symbol that is met has nothing before it. -/
theorem OccursAt.met (h : OccursAt ignored symbols pattern offsets) :
    OccursAt ignored (symbol :: symbols) (symbol :: pattern) (0 :: offsets.map (· + 1)) := by
  have hmeets : MeetsAll (symbol :: symbols) (symbol :: pattern) (Trail.mk offsets false).met.offsets :=
    MeetsAll.met h.meets
  refine ⟨hmeets, ?_⟩
  intro p q hq hpq hp passed hpassed
  cases p with
  | zero => exact absurd List.mem_cons_self hp
  | succ p =>
      rcases List.mem_cons.1 hq with rfl | hq
      · exact absurd hpq (Nat.not_lt_zero _)
      · obtain ⟨before, hbefore, rfl⟩ := List.mem_map.1 hq
        refine h.passes p before hbefore (Nat.lt_of_succ_lt_succ hpq) ?_ passed hpassed
        exact fun hmem => hp (List.mem_cons_of_mem _ (List.mem_map_of_mem hmem))

/-- A first symbol that is passed is ignored. -/
theorem OccursAt.passed (h : OccursAt ignored symbols pattern offsets)
    (hsymbol : ignored symbol = true) :
    OccursAt ignored (symbol :: symbols) pattern (offsets.map (· + 1)) := by
  have hmeets : MeetsAll (symbol :: symbols) pattern
      ((Trail.mk offsets false).passed false).offsets :=
    MeetsAll.passed h.meets
  refine ⟨hmeets, ?_⟩
  intro p q hq hpq hp passed hpassed
  obtain ⟨before, hbefore, rfl⟩ := List.mem_map.1 hq
  cases p with
  | zero =>
      obtain rfl := Option.some.inj hpassed
      exact hsymbol
  | succ p =>
      refine h.passes p before hbefore (Nat.lt_of_succ_lt_succ hpq) ?_ passed hpassed
      exact fun hmem => hp (List.mem_map_of_mem hmem)

/-- Behind a first symbol that is met the rest of the pattern occurs. -/
theorem OccursAt.behind
    (h : OccursAt ignored (symbol :: symbols) (wanted :: pattern) (0 :: offsets)) :
    OccursAt ignored symbols pattern (offsets.map (· - 1)) := by
  obtain ⟨⟨hlength, hincreasing, hsymbol⟩, hpasses⟩ := h
  obtain ⟨hpos, hincreasing⟩ := List.pairwise_cons.1 hincreasing
  refine ⟨⟨by simpa using hlength, ?_, ?_⟩, ?_⟩
  · refine List.pairwise_map.2 (hincreasing.imp_of_mem ?_)
    intro p q hp _ hpq
    have := hpos p hp
    omega
  · intro i q hq
    rw [List.getElem?_map] at hq
    obtain ⟨p, hp, rfl⟩ := Option.map_eq_some_iff.1 hq
    have hmet := hsymbol (i + 1) p hp
    rwa [← Nat.sub_add_cancel (hpos p (List.mem_of_getElem? hp))] at hmet
  · intro p q hq hpq hp passed hpassed
    obtain ⟨after, hafter, rfl⟩ := List.mem_map.1 hq
    refine hpasses (p + 1) after (List.mem_cons_of_mem _ hafter) (by omega) ?_ passed hpassed
    intro hmem
    rcases List.mem_cons.1 hmem with hzero | hmem
    · exact absurd hzero (Nat.succ_ne_zero p)
    · exact hp (List.mem_map.2 ⟨p + 1, hmem, rfl⟩)

/-- A first symbol that is not met may as well not be there. -/
theorem OccursAt.shift (h : OccursAt ignored (symbol :: symbols) pattern offsets)
    (hpos : ∀ p ∈ offsets, 0 < p) : OccursAt ignored symbols pattern (offsets.map (· - 1)) := by
  -- pretend that the pattern asks for it
  have hasked : OccursAt ignored (symbol :: symbols) (symbol :: pattern) (0 :: offsets) := by
    refine ⟨⟨?_, ?_, ?_⟩, ?_⟩
    · simp [h.meets.length_eq]
    · exact List.pairwise_cons.2 ⟨hpos, h.meets.increasing⟩
    · intro i p hp
      cases i with
      | zero =>
          obtain rfl := Option.some.inj hp
          rfl
      | succ i => exact h.meets.symbol_eq i p hp
    · intro p q hq hpq hp
      rcases List.mem_cons.1 hq with rfl | hq
      · exact absurd hpq (Nat.not_lt_zero p)
      · exact h.passes p q hq hpq fun hmem => hp (List.mem_cons_of_mem _ hmem)
  exact hasked.behind

/-- A wanted symbol that is ignored need not be met: what is found of a pattern that begins with it
is found of the rest as well. -/
theorem OccursAt.drop {p : Nat} (h : OccursAt ignored symbols (wanted :: pattern) (p :: offsets))
    (hwanted : ignored wanted = true) : OccursAt ignored symbols pattern offsets := by
  obtain ⟨⟨hlength, hincreasing, hsymbol⟩, hpasses⟩ := h
  refine ⟨⟨Nat.succ.inj hlength, (List.pairwise_cons.1 hincreasing).2,
    fun i => hsymbol (i + 1)⟩, ?_⟩
  intro a b hb hab ha passed hpassed
  by_cases hap : a = p
  · -- where the wanted symbol was met it is now passed
    subst hap
    obtain rfl : passed = wanted := Option.some.inj (hpassed.symm.trans (hsymbol 0 a rfl))
    exact hwanted
  · refine hpasses a b (List.mem_cons_of_mem _ hb) hab ?_ passed hpassed
    intro hmem
    rcases List.mem_cons.1 hmem with heq | hmem
    · exact hap heq
    · exact ha hmem

/-- The first symbol of a row is met first, or it is ignored and the pattern occurs behind it. -/
theorem OccursAt.cases (h : OccursAt ignored (symbol :: symbols) (wanted :: pattern) offsets) :
    (symbol = wanted ∧ ∃ rest, OccursAt ignored symbols pattern rest) ∨
      (ignored symbol = true ∧
        ∃ first rest, OccursAt ignored symbols (wanted :: pattern) (first :: rest)) := by
  cases offsets with
  | nil => cases h.meets.length_eq
  | cons p offsets =>
      have hmet := h.meets.symbol_eq 0 p rfl
      cases p with
      | zero => exact .inl ⟨Option.some.inj hmet, _, h.behind⟩
      | succ p =>
          have hpos : ∀ q ∈ (p + 1) :: offsets, 0 < q := by
            intro q hq
            rcases List.mem_cons.1 hq with rfl | hq
            · exact Nat.succ_pos p
            · exact Nat.lt_of_le_of_lt (Nat.zero_le _)
                ((List.pairwise_cons.1 h.meets.increasing).1 q hq)
          refine .inr ⟨?_, p, _, h.shift hpos⟩
          exact h.passes 0 (p + 1) List.mem_cons_self (Nat.succ_pos p)
            (fun hmem => absurd (hpos 0 hmem) (Nat.lt_irrefl 0)) symbol rfl

/-- **Nothing is lost by taking the first symbol that fits.** On a row without brackets the walk
finds the pattern exactly when it occurs. -/
theorem walk_iff_occursAt (side : Side) (ignored : String → Bool) (symbols pattern : List String)
    (hsymbols : ∀ symbol ∈ symbols, isBracket symbol = false) :
    walk side ignored {} symbols pattern = true ↔ ∃ offsets, OccursAt ignored symbols pattern offsets := by
  induction symbols generalizing pattern with
  | nil =>
      cases pattern with
      | nil => exact iff_of_true walk_nil ⟨[], occursAt_nil⟩
      | cons wanted pattern =>
          refine iff_of_false Bool.false_ne_true ?_
          rintro ⟨offsets, h⟩
          cases offsets with
          | nil => cases h.meets.length_eq
          | cons p offsets => cases h.meets.symbol_eq 0 p rfl
  | cons symbol symbols ih =>
      have hplain := hsymbols symbol List.mem_cons_self
      have ih := fun pattern => ih pattern fun s hs => hsymbols s (List.mem_cons_of_mem _ hs)
      cases pattern with
      | nil => exact iff_of_true walk_nil ⟨[], occursAt_nil⟩
      | cons wanted pattern =>
          by_cases hwanted : symbol = wanted
          · subst hwanted
            rw [walk_meet hplain rfl, ih]
            constructor
            · rintro ⟨offsets, h⟩
              exact ⟨_, h.met⟩
            · rintro ⟨offsets, h⟩
              rcases h.cases with ⟨-, hrest⟩ | ⟨hignored, first, rest, hlater⟩
              · exact hrest
              -- it was met later only, so it is ignored where it stands now
              · exact ⟨rest, hlater.drop hignored⟩
          · rw [walk_unmet hplain (.inl hwanted)]
            simp only [bne_self_eq_false, Bool.false_and, Bool.or_false, Bool.and_eq_true, ih]
            constructor
            · rintro ⟨hignored, offsets, h⟩
              exact ⟨_, h.passed hignored⟩
            · rintro ⟨offsets, h⟩
              rcases h.cases with ⟨heq, -⟩ | ⟨hignored, first, rest, hlater⟩
              · exact absurd heq hwanted
              · exact ⟨hignored, _, hlater⟩

end OccursAt

/-- **Patterns without brackets.** Such a pattern matches exactly when it occurs, in the order in
which it is met, among the visible symbols on the requested side, and every visible symbol that is
passed before its last one is ignored. -/
theorem matchesContext_iff_occurs (word : List String) (index : Nat) (pattern : List String)
    (side : Side) (ignored : Alphabet .ignored)
    (hpattern : ∀ wanted ∈ pattern, isBracket wanted = false) :
    matchesContext word index pattern side ignored = true ↔
      ∃ offsets, OccursAt (fun symbol => decide (symbol ∈ ignored))
        (side.visible (side.outward word index)) (side.facing pattern) offsets := by
  have hfacing : ∀ wanted ∈ side.facing pattern, isBracket wanted = false := by
    intro wanted hwanted
    refine hpattern wanted ?_
    cases side with
    | before => exact List.mem_reverse.1 hwanted
    | after => exact hwanted
  rw [matchesContext, walk_eq_walk_visibleFrom side _ 0 _ _ hfacing, Side.visibleFrom_zero]
  exact walk_iff_occursAt side _ _ _ fun _ => Side.isBracket_of_mem_visible

/-- A turn that is asked for behind another turn, a branch that hides its own turn, and a bracket
that closes nothing. -/
theorem matchesContext_iff_occurs_turns :
    (∀ wanted ∈ ["+", "D"], isBracket wanted = false) ∧
    matchesContext ["[", "A", "-", "[", "+", "C", "]", "+", "]", "+", "D"] 1 ["+", "D"] .after
      drawingMarks = true ∧
    Side.after.visible
      (Side.after.outward ["[", "A", "-", "[", "+", "C", "]", "+", "]", "+", "D"] 1) =
        ["-", "+", "+", "D"] ∧
    ∃ offsets, OccursAt (fun symbol => decide (symbol ∈ drawingMarks)) ["-", "+", "+", "D"]
      ["+", "D"] offsets := by
  have hpattern : ∀ wanted ∈ ["+", "D"], isBracket wanted = false := by decide
  have hmatches : matchesContext ["[", "A", "-", "[", "+", "C", "]", "+", "]", "+", "D"] 1
      ["+", "D"] .after drawingMarks = true := by decide
  have hvisible : Side.after.visible
      (Side.after.outward ["[", "A", "-", "[", "+", "C", "]", "+", "]", "+", "D"] 1) =
        ["-", "+", "+", "D"] := by decide
  have hoccurs := (matchesContext_iff_occurs _ 1 _ .after drawingMarks hpattern).1 hmatches
  rw [hvisible] at hoccurs
  exact ⟨hpattern, hmatches, hvisible, hoccurs⟩

end GrowthGrammar
