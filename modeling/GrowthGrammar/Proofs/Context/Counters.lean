import GrowthGrammar.Proofs.Context.Branches
import GrowthGrammar.Proofs.Context.Walk
import GrowthGrammar.Proofs.Loop

/-!
# The counters of a walk

A walk can be told by numbers: the positions of the word that are still to be read, a cursor into the
pattern, and the brackets open around the walk (`Stage`). Nothing but what the numbers point to is
read, so a number that points nowhere would trap the walk. None ever does: told this way, every walk
ends as the context match does, and at every stage the brackets that are remembered are as many as
the brackets that are open (`matchesContext_counters`). Neither the word nor the pattern need have
balanced brackets. An empty pattern is matched without a walk.
-/

set_option autoImplicit false

namespace GrowthGrammar

/-! ## Brackets that are remembered -/

namespace Nesting

/-- Either no bracket is remembered, or all open brackets are, and the pattern has opened the
outermost of them. -/
def IsSteady (nesting : Nesting) : Prop :=
  nesting.followed = [] ∨
    nesting.followed.length = nesting.depth ∧ nesting.followed.getLast? = some true

section Steady

variable {side : Side} {ignored : String → Bool} {nesting next : Nesting} {wanted symbol : String}

theorem isSteady_iff :
    nesting.IsSteady ↔ nesting.IsConsistent ∧ nesting.followed.getLast? ≠ some false := by
  obtain ⟨depth, followed⟩ := nesting
  by_cases hfollowed : followed = []
  · simp [IsSteady, IsConsistent, hfollowed]
  · obtain ⟨first, hfirst⟩ : ∃ first, followed.getLast? = some first :=
      ⟨_, List.getLast?_eq_some_getLast hfollowed⟩
    cases first <;> simp [IsSteady, IsConsistent, hfollowed, hfirst, eq_comm]

theorem IsSteady.enter (h : nesting.IsSteady) (htracks : nesting.tracks = true) :
    nesting.enter.IsSteady := by
  rw [isSteady_iff] at h ⊢
  refine ⟨h.1.enter htracks, ?_⟩
  cases hfollowed : nesting.followed with
  | nil => simp [Nesting.enter, hfollowed]
  | cons first followed => simpa [Nesting.enter, hfollowed] using h.2

theorem IsSteady.pass (h : nesting.IsSteady) : nesting.pass.IsSteady := by
  rw [isSteady_iff] at h ⊢
  refine ⟨h.1.pass, ?_⟩
  cases hfollowed : nesting.followed with
  | nil => simp [Nesting.pass, hfollowed]
  | cons first followed => simpa [Nesting.pass, hfollowed] using h.2

theorem IsSteady.leave (h : nesting.IsSteady) : nesting.leave.IsSteady := by
  rw [isSteady_iff] at h ⊢
  refine ⟨h.1.leave, ?_⟩
  obtain ⟨depth, followed⟩ := nesting
  match followed with
  | [] => simp [Nesting.leave]
  | [first] => simp [Nesting.leave]
  | first :: second :: followed => simpa [Nesting.leave] using h.2

/-- Whatever the walk does with a symbol, the nesting stays steady. -/
theorem IsSteady.visit (h : nesting.IsSteady)
    (hvisit : nesting.visit side ignored wanted symbol = .matched next ∨
      nesting.visit side ignored wanted symbol = .skipped next) : next.IsSteady := by
  have hmove := nesting.moves_visit side ignored wanted symbol
  rcases hvisit with hvisit | hvisit
  · rw [hvisit] at hmove
    cases hmove with
    | enter tracks => exact h.enter tracks
    | finish tracks => exact h.leave
    | meet hopening hclosing => exact h
  · rw [hvisit] at hmove
    cases hmove with
    | pass => exact h.pass
    | leave => exact h.leave
    | skip hopening hclosing => exact h

/-- While a bracket is remembered, closing one takes one from a number that is not zero. -/
theorem IsSteady.depth_leave (h : nesting.IsSteady) (hfollowed : nesting.followed ≠ []) :
    nesting.leave.depth + 1 = nesting.depth := by
  obtain ⟨hlength, -⟩ := h.resolve_left hfollowed
  have hpos := List.length_pos_iff.2 hfollowed
  simp only [Nesting.leave]
  omega

/-- In a branch that the pattern has not entered every symbol is passed, the wanted one too. -/
theorem exists_visit_eq_skipped (h : nesting.tracks = false) :
    ∃ next, nesting.visit side ignored wanted symbol = .skipped next := by
  have hdepth := depth_ne_zero_of_tracks h
  rcases side.bracket_cases symbol with rfl | rfl | ⟨hopening, hclosing⟩
  · exact ⟨nesting.pass, by simp [Nesting.visit, h]⟩
  · exact ⟨nesting.leave, by simp [Nesting.visit, h, side.opening_ne_closing.symm]⟩
  · exact ⟨nesting, by simp [Nesting.visit, h, hopening, hclosing, hdepth]⟩

end Steady

end Nesting

/-! ## A walk by its counters -/

/-- The positions on one side of an index in a word of some length, nearest first. -/
def Side.ahead (side : Side) (length index : Nat) : List Nat :=
  match side with
  | before => (List.range (min index length)).reverse
  | after => List.range' (index + 1) (length - (index + 1))

/-- Where a walk stands before it reads a symbol. -/
structure Stage where
  /-- The positions that are still to be read, nearest first. -/
  ahead : List Nat
  /-- The place in the pattern of the symbol that is wanted. -/
  cursor : Nat := 0
  nesting : Nesting := {}

namespace Stage

/-- One round of a walk. The symbols of the pattern are listed in the order in which they are to be
met. -/
def round (side : Side) (ignored : String → Bool) (word expected : List String) (stage : Stage) :
    Round Stage Bool :=
  match stage.ahead with
  | [] => .done false
  | position :: ahead =>
    match word[position]?, expected[stage.cursor]? with
    | some symbol, some wanted =>
      match stage.nesting.visit side ignored wanted symbol with
      | .matched next =>
        if stage.cursor + 1 = expected.length then .done true
        else .next ⟨ahead, stage.cursor + 1, next⟩
      | .skipped next => .next ⟨ahead, stage.cursor, next⟩
      | .refused => .done false
    | _, _ => .trap

section Rounds

variable {side : Side} {ignored : String → Bool} {word expected : List String} {stage next : Stage}
  {position : Nat} {ahead : List Nat} {symbol wanted : String}

theorem round_cons (hahead : stage.ahead = position :: ahead)
    (hsymbol : word[position]? = some symbol) (hwanted : expected[stage.cursor]? = some wanted) :
    stage.round side ignored word expected =
      match stage.nesting.visit side ignored wanted symbol with
      | .matched next =>
        if stage.cursor + 1 = expected.length then .done true
        else .next ⟨ahead, stage.cursor + 1, next⟩
      | .skipped next => .next ⟨ahead, stage.cursor, next⟩
      | .refused => .done false := by
  unfold round
  rw [hahead]
  simp only [hsymbol, hwanted]

/-- A round that leads on reads one position, and moves the cursor by one or not at all. -/
theorem round_eq_next (h : stage.round side ignored word expected = .next next) :
    ∃ position ahead symbol wanted, stage.ahead = position :: ahead ∧ next.ahead = ahead ∧
      (stage.nesting.visit side ignored wanted symbol = .matched next.nesting ∧
          next.cursor = stage.cursor + 1 ∧ stage.cursor + 1 ≠ expected.length ∨
        stage.nesting.visit side ignored wanted symbol = .skipped next.nesting ∧
          next.cursor = stage.cursor) := by
  unfold round at h
  split at h
  · cases h
  · next position ahead hahead =>
    split at h
    · next symbol wanted _ _ =>
      refine ⟨position, ahead, symbol, wanted, hahead, ?_⟩
      split at h
      · next nesting hvisit =>
        split at h
        · cases h
        · next hlast =>
          cases h
          exact ⟨rfl, .inl ⟨hvisit, rfl, hlast⟩⟩
      · next nesting hvisit =>
        cases h
        exact ⟨rfl, .inr ⟨hvisit, rfl⟩⟩
      · cases h
    · cases h

/-- What every stage of a walk keeps to. -/
structure IsSteady (word expected : List String) (stage : Stage) : Prop where
  cursor_lt : stage.cursor < expected.length
  inside : ∀ position ∈ stage.ahead, position < word.length
  nesting : stage.nesting.IsSteady

theorem IsSteady.of_round (h : stage.IsSteady word expected)
    (hround : stage.round side ignored word expected = .next next) :
    next.IsSteady word expected := by
  obtain ⟨position, ahead, symbol, wanted, hahead, rfl, hvisit⟩ := round_eq_next hround
  have hlt := h.cursor_lt
  refine ⟨?_, ?_, ?_⟩
  · rcases hvisit with ⟨-, hcursor, hlast⟩ | ⟨-, hcursor⟩ <;> omega
  · intro other hother
    apply h.inside
    rw [hahead]
    exact List.mem_cons_of_mem position hother
  · exact h.nesting.visit (hvisit.imp And.left And.left)

/-- Told by its counters, a walk over the symbols ahead ends as the walk does. -/
theorem ends_walk {symbols : List String} (hcursor : stage.cursor < expected.length)
    (hsymbols : stage.ahead.map (word[·]?) = symbols.map some) :
    Round.Ends (round side ignored word expected) stage
      (walk side ignored stage.nesting symbols (expected.drop stage.cursor)) := by
  induction symbols generalizing stage with
  | nil =>
      have hahead : stage.ahead = [] := List.map_eq_nil_iff.1 hsymbols
      rw [List.drop_eq_getElem_cons hcursor]
      apply Round.Ends.of_done
      unfold round
      rw [hahead]
      rfl
  | cons symbol symbols ih =>
      obtain ⟨position, ahead, hahead, hsymbol, hrest⟩ := List.map_eq_cons_iff.1 hsymbols
      have hround : stage.round side ignored word expected = _ :=
        round_cons hahead hsymbol (List.getElem?_eq_getElem hcursor)
      rw [List.drop_eq_getElem_cons hcursor, walk]
      cases hvisit : stage.nesting.visit side ignored expected[stage.cursor] symbol with
      | matched next =>
          rw [hvisit] at hround
          by_cases hlast : stage.cursor + 1 = expected.length
          · rw [hlast, List.drop_length]
            apply Round.Ends.of_done
            simpa [hlast] using hround
          · have hnext : stage.round side ignored word expected =
                .next ⟨ahead, stage.cursor + 1, next⟩ := by simpa [hlast] using hround
            have hlt : stage.cursor + 1 < expected.length := by omega
            exact Round.Ends.of_next hnext (ih hlt hrest)
      | skipped next =>
          rw [hvisit] at hround
          rw [← List.drop_eq_getElem_cons hcursor]
          exact Round.Ends.of_next hround (ih hcursor hrest)
      | refused =>
          rw [hvisit] at hround
          exact Round.Ends.of_done hround

end Rounds

end Stage

/-! ## Contexts -/

/-- The positions ahead are those of the symbols that the walk meets. -/
theorem Side.map_ahead (side : Side) (word : List String) (index : Nat) :
    (side.ahead word.length index).map (word[·]?) = (side.outward word index).map some := by
  cases side with
  | before =>
      have hrange : (List.range (min index word.length)).map (word[·]?) =
          (word.take index).map some := by
        apply List.ext_getElem
        · simp
        · intro i hi _
          have hlt : i < word.length := by
            simp at hi
            omega
          simp [hlt]
      show (List.range (min index word.length)).reverse.map _ = (word.take index).reverse.map some
      rw [List.map_reverse, List.map_reverse, hrange]
  | after =>
      show (List.range' (index + 1) (word.length - (index + 1))).map _ =
        (word.drop (index + 1)).map some
      apply List.ext_getElem
      · simp
      · intro i hi _
        have hlt : index + 1 + i < word.length := by
          simp at hi
          omega
        simp [hlt]

theorem Side.lt_of_mem_ahead {side : Side} {length index position : Nat}
    (h : position ∈ side.ahead length index) : position < length := by
  cases side with
  | before =>
      have hlt := List.mem_range.1 (List.mem_reverse.1 h)
      omega
  | after =>
      have hbounds := List.mem_range'_1.1 h
      omega

theorem Side.length_facing (side : Side) (pattern : List String) :
    (side.facing pattern).length = pattern.length := by
  cases side <;> simp [facing]

/-- Where the walk away from an index begins. -/
def Stage.start (side : Side) (word : List String) (index : Nat) : Stage :=
  { ahead := side.ahead word.length index }

/-- One round of the walk that looks for a pattern on one side. -/
def contextRound (word pattern : List String) (side : Side) (ignored : Alphabet .ignored) :
    Stage → Round Stage Bool :=
  Stage.round side (fun symbol => decide (symbol ∈ ignored)) word (side.facing pattern)

/-- **The counters of a walk never drift apart.** A walk that reads only what its counters point to
ends as the context match, and traps nowhere. At every stage of it the cursor points into the pattern
and all positions ahead into the word; the brackets that are remembered are none, or as many as are
open, with one of the pattern outermost. So no bracket is closed at depth zero while any is
remembered, and in a branch that the pattern has not entered the cursor stays, even at a bracket that
is the wanted symbol. -/
theorem matchesContext_counters (word : List String) (index : Nat) {pattern : List String}
    (hpattern : pattern ≠ []) (side : Side) (ignored : Alphabet .ignored) :
    Round.Ends (contextRound word pattern side ignored) (.start side word index)
        (matchesContext word index pattern side ignored) ∧
      ∀ stage, Round.Reaches (contextRound word pattern side ignored) (.start side word index)
          stage →
        contextRound word pattern side ignored stage ≠ .trap ∧
        stage.cursor < pattern.length ∧
        (∀ position ∈ stage.ahead, position < word.length) ∧
        (stage.nesting.followed = [] ∨ stage.nesting.followed.length = stage.nesting.depth ∧
          stage.nesting.followed.getLast? = some true) ∧
        (stage.nesting.followed ≠ [] → stage.nesting.leave.depth + 1 = stage.nesting.depth) ∧
        ∀ position ahead, stage.ahead = position :: ahead → stage.nesting.tracks = false →
          ∃ nesting, contextRound word pattern side ignored stage =
            .next ⟨ahead, stage.cursor, nesting⟩ := by
  have hcursor : 0 < (side.facing pattern).length := by
    rw [side.length_facing]
    exact List.length_pos_iff.2 hpattern
  have hends : Round.Ends (contextRound word pattern side ignored) (.start side word index)
      (matchesContext word index pattern side ignored) :=
    Stage.ends_walk hcursor (side.map_ahead word index)
  refine ⟨hends, ?_⟩
  intro stage hreaches
  have hstart : Stage.IsSteady word (side.facing pattern) (.start side word index) :=
    ⟨hcursor, fun _ => Side.lt_of_mem_ahead, .inl rfl⟩
  have hsteady : stage.IsSteady word (side.facing pattern) :=
    hreaches.keeps hstart fun _ _ hstage => hstage.of_round
  obtain ⟨hlt, hinside, hnesting⟩ := hsteady
  refine ⟨hends.ne_trap hreaches, ?_, hinside, hnesting, hnesting.depth_leave, ?_⟩
  · rwa [side.length_facing] at hlt
  · intro position ahead hahead htracks
    have hposition : position < word.length := by
      apply hinside
      rw [hahead]
      exact List.mem_cons_self
    obtain ⟨nesting, hvisit⟩ := Nesting.exists_visit_eq_skipped htracks
    refine ⟨nesting, ?_⟩
    rw [contextRound, Stage.round_cons hahead (List.getElem?_eq_getElem hposition)
      (List.getElem?_eq_getElem hlt), hvisit]

/-- The bracket at 5 in `A[C[E]]D` closes a branch that the pattern `[C]D` has not entered, so the
cursor stays at the `]` of the pattern. -/
theorem matchesContext_counters_nested :
    ["[", "C", "]", "D"] ≠ [] ∧
      Round.Reaches (contextRound ["A", "[", "C", "[", "E", "]", "]", "D"] ["[", "C", "]", "D"] .after
        drawingMarks) (.start .after ["A", "[", "C", "[", "E", "]", "]", "D"] 0)
        ⟨[5, 6, 7], 2, ⟨2, [false, true]⟩⟩ ∧
      Round.Ends (contextRound ["A", "[", "C", "[", "E", "]", "]", "D"] ["[", "C", "]", "D"] .after
        drawingMarks) (.start .after ["A", "[", "C", "[", "E", "]", "]", "D"] 0) true ∧
      Nesting.depth (Nesting.leave ⟨2, [false, true]⟩) + 1 = 2 ∧
      ∃ nesting, contextRound ["A", "[", "C", "[", "E", "]", "]", "D"] ["[", "C", "]", "D"] .after
        drawingMarks ⟨[5, 6, 7], 2, ⟨2, [false, true]⟩⟩ = .next ⟨[6, 7], 2, nesting⟩ := by
  have hpattern : ["[", "C", "]", "D"] ≠ [] := by decide
  have hreaches : Round.Reaches (contextRound ["A", "[", "C", "[", "E", "]", "]", "D"]
      ["[", "C", "]", "D"] .after drawingMarks)
      (.start .after ["A", "[", "C", "[", "E", "]", "]", "D"] 0)
      ⟨[5, 6, 7], 2, ⟨2, [false, true]⟩⟩ := by
    -- the walk enters a branch, meets C, passes the bracket at 3 and then E
    refine .head (b := ⟨[2, 3, 4, 5, 6, 7], 1, ⟨1, [true]⟩⟩) rfl ?_
    refine .head (b := ⟨[3, 4, 5, 6, 7], 2, ⟨1, [true]⟩⟩) rfl ?_
    refine .head (b := ⟨[4, 5, 6, 7], 2, ⟨2, [false, true]⟩⟩) rfl ?_
    exact .single rfl
  obtain ⟨hends, hstages⟩ := matchesContext_counters ["A", "[", "C", "[", "E", "]", "]", "D"] 0
    hpattern .after drawingMarks
  obtain ⟨-, -, -, -, hdepth, hcursor⟩ := hstages _ hreaches
  have hmatch : matchesContext ["A", "[", "C", "[", "E", "]", "]", "D"] 0 ["[", "C", "]", "D"]
      .after drawingMarks = true := by decide
  rw [hmatch] at hends
  exact ⟨hpattern, hreaches, hends, hdepth (by decide), hcursor 5 [6, 7] rfl rfl⟩

end GrowthGrammar
