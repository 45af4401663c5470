import GrowthGrammar.Proofs.Context.Branches

/-!
# What a context match assigns

A match assigns to every symbol of the pattern a position of the word on the requested side, in
order and with the same symbol there (`IsAssignment`). This module carries the facts about walks
over to positions, where the left side is read backwards, and says exactly when brackets that belong
together are met at brackets that belong together (`keepsPairs_iff_not_escapes`).
-/

set_option autoImplicit false

namespace GrowthGrammar

open Trail

/-! ## Pairs in a part of a row -/

section Parts

variable {side : Side} {symbols pattern : List String} {offsets : List Nat}

theorem keepsPairs_append_left (front : List String) :
    KeepsPairs side (front ++ symbols) pattern (offsets.map (front.length + ·)) ↔
      KeepsPairs side symbols pattern offsets := by
  constructor
  · intro hkeeps i j hpair p q hp hq
    have hpair' := hkeeps i j hpair (front.length + p) (front.length + q)
      (by simp [hp]) (by simp [hq])
    exact (Side.isPair_append_left front).1 hpair'
  · intro hkeeps i j hpair p q hp hq
    rw [List.getElem?_map] at hp hq
    obtain ⟨p', hp', rfl⟩ := Option.map_eq_some_iff.1 hp
    obtain ⟨q', hq', rfl⟩ := Option.map_eq_some_iff.1 hq
    exact (Side.isPair_append_left front).2 (hkeeps i j hpair p' q' hp' hq')

theorem keepsPairs_append_right (rest : List String) (hlt : ∀ p ∈ offsets, p < symbols.length) :
    KeepsPairs side (symbols ++ rest) pattern offsets ↔
      KeepsPairs side symbols pattern offsets := by
  constructor
  · intro hkeeps i j hpair p q hp hq
    exact (Side.isPair_append_right rest (hlt q (List.mem_of_getElem? hq))).1
      (hkeeps i j hpair p q hp hq)
  · intro hkeeps i j hpair p q hp hq
    exact (Side.isPair_append_right rest (hlt q (List.mem_of_getElem? hq))).2
      (hkeeps i j hpair p q hp hq)

/-- The offsets of the same symbols in a row that is read backwards. -/
def backwards (symbols : List String) (offsets : List Nat) : List Nat :=
  (offsets.map (symbols.length - 1 - ·)).reverse

@[simp] theorem length_backwards : (backwards symbols offsets).length = offsets.length := by
  simp [backwards]

theorem getElem?_backwards {i p : Nat} (h : (backwards symbols offsets)[i]? = some p) :
    ∃ q, offsets[offsets.length - 1 - i]? = some q ∧ p = symbols.length - 1 - q := by
  have hlt : i < offsets.length := by
    obtain ⟨hi, -⟩ := List.getElem?_eq_some_iff.1 h
    simpa using hi
  rw [backwards, List.getElem?_reverse (by simpa using hlt), List.length_map,
    List.getElem?_map] at h
  obtain ⟨q, hq, rfl⟩ := Option.map_eq_some_iff.1 h
  exact ⟨q, hq, rfl⟩

theorem backwards_backwards (hlt : ∀ p ∈ offsets, p < symbols.length) :
    backwards symbols.reverse (backwards symbols offsets) = offsets := by
  rw [backwards, backwards, List.map_reverse, List.reverse_reverse, List.map_map,
    List.length_reverse]
  refine (List.map_congr_left ?_).trans (List.map_id offsets)
  intro p hp
  have := hlt p hp
  simp only [Function.comp_apply, id_eq]
  omega

theorem keepsPairs_backwards (hlength : offsets.length = pattern.length)
    (hlt : ∀ p ∈ offsets, p < symbols.length) (hkeeps : KeepsPairs side symbols pattern offsets) :
    KeepsPairs side.flip symbols.reverse pattern.reverse (backwards symbols offsets) := by
  intro i j hpair p q hp hq
  have hij := hpair.lt
  have hj : j < pattern.length := by simpa using hpair.last_lt
  obtain ⟨p', hp', rfl⟩ := getElem?_backwards hp
  obtain ⟨q', hq', rfl⟩ := getElem?_backwards hq
  rw [hlength] at hp' hq'
  have hback : side.IsPair pattern (pattern.length - 1 - j) (pattern.length - 1 - i) := by
    have hreverse := hpair.reverse
    rwa [Side.flip_flip, List.reverse_reverse, List.length_reverse] at hreverse
  have hp'lt := hlt p' (List.mem_of_getElem? hp')
  have hq'lt := hlt q' (List.mem_of_getElem? hq')
  exact (Side.isPair_reverse hq'lt hp'lt).2 (hkeeps _ _ hback q' p' hq' hp')

/-- Pairs that are kept are kept when both rows are read backwards. -/
theorem keepsPairs_backwards_iff (side : Side) (hlength : offsets.length = pattern.length)
    (hlt : ∀ p ∈ offsets, p < symbols.length) :
    KeepsPairs side.flip symbols.reverse pattern.reverse (backwards symbols offsets) ↔
      KeepsPairs side symbols pattern offsets := by
  constructor
  · intro hkeeps
    have hlt' : ∀ p ∈ backwards symbols offsets, p < symbols.reverse.length := by
      intro p hp
      obtain ⟨q, hq, rfl⟩ := List.mem_map.1 (List.mem_reverse.1 hp)
      have := hlt q hq
      rw [List.length_reverse]
      omega
    have hback := keepsPairs_backwards (by simpa using hlength) hlt' hkeeps
    rwa [Side.flip_flip, List.reverse_reverse, List.reverse_reverse, backwards_backwards hlt]
      at hback
  · exact keepsPairs_backwards hlength hlt

end Parts

/-! ## Positions of the word -/

/-- The positions at which a walk away from `index` has met the symbols of a pattern, from left to
right. -/
def Side.positions (side : Side) (word : List String) (index : Nat) (offsets : List Nat) :
    List Nat :=
  match side with
  | before => backwards (side.outward word index) offsets
  | after => offsets.map (index + 1 + ·)

/-- Whether a position lies on this side of `index`. -/
def Side.reaches (side : Side) (index position : Nat) : Prop :=
  match side with
  | before => position < index
  | after => index < position

/-- Every symbol of a pattern has a position on the requested side of `index`, in order, with that
symbol in the word. -/
structure IsAssignment (word : List String) (index : Nat) (side : Side) (pattern : List String)
    (positions : List Nat) : Prop where
  length_eq : positions.length = pattern.length
  increasing : positions.Pairwise (· < ·)
  reaches : ∀ position ∈ positions, side.reaches index position
  symbol_eq : ∀ i position : Nat, positions[i]? = some position → word[position]? = pattern[i]?

section Positions

variable {side : Side} {word pattern : List String} {index : Nat} {offsets : List Nat}

theorem MeetsAll.lt {symbols : List String} (h : MeetsAll symbols pattern offsets) :
    ∀ p ∈ offsets, p < symbols.length := by
  intro p hp
  obtain ⟨i, hi, rfl⟩ := List.mem_iff_getElem.1 hp
  have hsymbol := h.symbol_eq i _ (List.getElem?_eq_getElem hi)
  have hi' : i < pattern.length := by rwa [← h.length_eq]
  rw [List.getElem?_eq_getElem hi'] at hsymbol
  exact (List.getElem?_eq_some_iff.1 hsymbol).1

theorem isAssignment_after (h : MeetsAll (word.drop (index + 1)) pattern offsets) :
    IsAssignment word index .after pattern (offsets.map (index + 1 + ·)) := by
  obtain ⟨hlength, hincreasing, hsymbol⟩ := h
  refine ⟨by simpa using hlength, ?_, ?_, ?_⟩
  · exact List.pairwise_map.2 (hincreasing.imp fun hlt => Nat.add_lt_add_left hlt _)
  · intro position hposition
    obtain ⟨p, -, rfl⟩ := List.mem_map.1 hposition
    show index < index + 1 + p
    omega
  · intro i position hposition
    rw [List.getElem?_map] at hposition
    obtain ⟨p, hp, rfl⟩ := Option.map_eq_some_iff.1 hposition
    rw [← List.getElem?_drop]
    exact hsymbol i p hp

/-- Offset `p` of a walk to the left is position `index - 1 - p` of the word. -/
theorem isAssignment_before
    (h : MeetsAll (word.take index).reverse pattern.reverse offsets) :
    IsAssignment word index .before pattern (backwards (word.take index).reverse offsets) := by
  have hlt := MeetsAll.lt h
  have hsize : ((word.take index).reverse).length ≤ index := by
    rw [List.length_reverse, List.length_take]
    omega
  obtain ⟨hlength, hincreasing, hsymbol⟩ := h
  rw [List.length_reverse] at hlength
  refine ⟨by simpa using hlength, ?_, ?_, ?_⟩
  · refine List.pairwise_reverse.2 (List.pairwise_map.2 (hincreasing.imp_of_mem ?_))
    intro p q hp hq hpq
    have := hlt q hq
    omega
  · intro position hposition
    obtain ⟨p, hp, rfl⟩ := List.mem_map.1 (List.mem_reverse.1 hposition)
    have := hlt p hp
    show ((word.take index).reverse).length - 1 - p < index
    omega
  · intro i position hposition
    obtain ⟨p, hp, rfl⟩ := getElem?_backwards hposition
    have hi : i < offsets.length := by
      obtain ⟨hi, -⟩ := List.getElem?_eq_some_iff.1 hposition
      simpa using hi
    have hplt := hlt p (List.mem_of_getElem? hp)
    have hmet := hsymbol _ p hp
    -- the last symbol of the pattern is met first
    rw [List.getElem?_reverse (by simpa using hplt), List.getElem?_reverse (by omega), hlength,
      show pattern.length - 1 - (pattern.length - 1 - i) = i by omega] at hmet
    rw [← hmet, List.length_reverse, List.getElem?_take_of_lt]
    rw [List.length_reverse] at hplt hsize
    omega

/-- What a walk has met is assigned to positions of the word. -/
theorem isAssignment_positions
    (h : MeetsAll (side.outward word index) (side.facing pattern) offsets) :
    IsAssignment word index side pattern (side.positions word index offsets) := by
  cases side with
  | before => exact isAssignment_before h
  | after => exact isAssignment_after h

theorem keepsPairs_after (hlt : ∀ p ∈ offsets, p < (word.drop (index + 1)).length) :
    KeepsPairs .after word pattern (offsets.map (index + 1 + ·)) ↔
      KeepsPairs .after (word.drop (index + 1)) pattern offsets := by
  by_cases hindex : index + 1 ≤ word.length
  · have hfront : (word.take (index + 1)).length = index + 1 := by
      rw [List.length_take]
      omega
    -- the walk begins behind the letters up to `index`
    have hsplit : KeepsPairs .after (word.take (index + 1) ++ word.drop (index + 1)) pattern
        (offsets.map ((word.take (index + 1)).length + ·)) ↔
        KeepsPairs .after (word.drop (index + 1)) pattern offsets :=
      keepsPairs_append_left _
    rwa [List.take_append_drop, hfront] at hsplit
  · -- behind the last letter nothing is met
    have hnone : offsets = [] := by
      refine List.eq_nil_iff_forall_not_mem.2 fun p hp => ?_
      have := hlt p hp
      rw [List.length_drop] at this
      omega
    subst hnone
    refine iff_of_true ?_ ?_
    all_goals
      intro i j hpair p q hp
      cases hp

theorem keepsPairs_before (hlength : offsets.length = pattern.reverse.length)
    (hlt : ∀ p ∈ offsets, p < (word.take index).reverse.length) :
    KeepsPairs .after word pattern (backwards (word.take index).reverse offsets) ↔
      KeepsPairs .before (word.take index).reverse pattern.reverse offsets := by
  -- turn the walk around, then put the letters from `index` on behind it
  have hback : KeepsPairs .after (word.take index).reverse.reverse pattern.reverse.reverse
      (backwards (word.take index).reverse offsets) ↔
      KeepsPairs .before (word.take index).reverse pattern.reverse offsets :=
    keepsPairs_backwards_iff .before hlength hlt
  rw [List.reverse_reverse, List.reverse_reverse] at hback
  refine Iff.trans ?_ hback
  have hlt' : ∀ p ∈ backwards (word.take index).reverse offsets,
      p < (word.take index).length := by
    intro p hp
    obtain ⟨q, hq, rfl⟩ := List.mem_map.1 (List.mem_reverse.1 hp)
    have := hlt q hq
    rw [List.length_reverse] at this ⊢
    omega
  have hsplit : KeepsPairs .after (word.take index ++ word.drop index) pattern
      (backwards (word.take index).reverse offsets) ↔
      KeepsPairs .after (word.take index) pattern
        (backwards (word.take index).reverse offsets) :=
    keepsPairs_append_right _ hlt'
  rwa [List.take_append_drop] at hsplit

/-- Pairs of the word are pairs of the walk. -/
theorem keepsPairs_positions
    (h : MeetsAll (side.outward word index) (side.facing pattern) offsets) :
    KeepsPairs .after word pattern (side.positions word index offsets) ↔
      KeepsPairs side (side.outward word index) (side.facing pattern) offsets := by
  cases side with
  | before => exact keepsPairs_before h.length_eq (MeetsAll.lt h)
  | after => exact keepsPairs_after (MeetsAll.lt h)

end Positions

/-! ## What a match is worth -/

/-- The trail of the walk that looks for a pattern around `index`. -/
def contextTrail (word : List String) (index : Nat) (pattern : List String) (side : Side)
    (ignored : Alphabet .ignored) : Option Trail :=
  trail side (fun symbol => decide (symbol ∈ ignored)) {} (side.outward word index)
    (side.facing pattern)

theorem level_facing {side : Side} {pattern : List String} (h : Side.after.IsBalanced pattern) :
    side.level 0 (side.facing pattern) = some 0 := by
  cases side with
  | after => exact h
  | before => exact Side.level_reverse h

/-- **What a match assigns.** When a pattern with balanced brackets matches, the walk has met all
its symbols in order on the requested side. The brackets of the pattern have been met at brackets of
the same branches exactly when the walk has not escaped from a branch, and it never escapes if the
word closes no branch on that side that is open at the letter itself. -/
theorem keepsPairs_iff_not_escapes (word : List String) (index : Nat) (pattern : List String)
    (side : Side) (ignored : Alphabet .ignored) (hpattern : Side.after.IsBalanced pattern)
    (hmatch : matchesContext word index pattern side ignored = true) :
    ∃ trail, contextTrail word index pattern side ignored = some trail ∧
      IsAssignment word index side pattern (side.positions word index trail.offsets) ∧
      (KeepsPairs .after word pattern (side.positions word index trail.offsets) ↔
        trail.escapes = false) ∧
      (side.level 0 (side.outward word index) ≠ none → trail.escapes = false) := by
  have hlevel : side.level 0 (side.facing pattern) = some 0 := level_facing hpattern
  have hnesting : Nesting.IsConsistent {} := .inl rfl
  rw [matchesContext, walk_eq_isSome] at hmatch
  obtain ⟨found, hfound⟩ := Option.isSome_iff_exists.1 hmatch
  have hfollows := follows_of_trail hfound
  refine ⟨found, hfound, isAssignment_positions hfollows.meetsAll, ?_, ?_⟩
  · rw [keepsPairs_positions hfollows.meetsAll, ← isFaithful_nil]
    exact hfollows.isFaithful_iff hnesting hlevel
  · intro hword
    obtain ⟨after, hafter, hescapes⟩ := hfollows.exists_level hnesting hword
    -- a balanced pattern leaves no bracket open, and an escape would leave one
    have hzero : after = 0 := by
      rw [List.count_nil, hlevel] at hafter
      exact (Option.some.inj hafter).symm
    subst hzero
    exact Bool.eq_false_iff.2 fun h => absurd (hescapes h) (Nat.lt_irrefl 0)

/-- A nested pattern around a letter that stands in no branch. -/
theorem keepsPairs_iff_not_escapes_nested :
    Side.after.IsBalanced ["[", "C", "[", "E", "]", "]", "D"] ∧
      matchesContext ["A", "[", "C", "[", "E", "]", "]", "D"] 0 ["[", "C", "[", "E", "]", "]", "D"]
        .after drawingMarks = true ∧
      ∃ trail, contextTrail ["A", "[", "C", "[", "E", "]", "]", "D"] 0
        ["[", "C", "[", "E", "]", "]", "D"] .after drawingMarks = some trail ∧
        KeepsPairs .after ["A", "[", "C", "[", "E", "]", "]", "D"]
          ["[", "C", "[", "E", "]", "]", "D"]
          (Side.after.positions ["A", "[", "C", "[", "E", "]", "]", "D"] 0 trail.offsets) := by
  have hpattern : Side.after.IsBalanced ["[", "C", "[", "E", "]", "]", "D"] := by decide
  have hmatch : matchesContext ["A", "[", "C", "[", "E", "]", "]", "D"] 0
      ["[", "C", "[", "E", "]", "]", "D"] .after drawingMarks = true := by decide
  obtain ⟨trail, htrail, -, hkeeps, hescapes⟩ :=
    keepsPairs_iff_not_escapes _ _ _ _ _ hpattern hmatch
  exact ⟨hpattern, hmatch, trail, htrail, hkeeps.2 (hescapes (by decide))⟩

/-- **A match may leave a branch too early.** In `[A[C]D]` the pattern `[CD]` matches to the right
of `A`, though no branch there holds both `C` and `D`. -/
theorem exists_match_without_branch :
    ¬∀ (word : List String) (index : Nat) (pattern : List String) (side : Side)
      (ignored : Alphabet .ignored), Side.after.IsBalanced pattern →
      matchesContext word index pattern side ignored = true →
      ∃ positions, IsAssignment word index side pattern positions ∧
        KeepsPairs .after word pattern positions := by
  intro h
  obtain ⟨positions, ⟨hlength, hincreasing, hreaches, hsymbol⟩, hkeeps⟩ :=
    h ["[", "A", "[", "C", "]", "D", "]"] 1 ["[", "C", "D", "]"] .after drawingMarks (by decide)
      (by decide)
  match positions, hlength with
  | [p, q, r, t], _ =>
      -- only one bracket opens behind the letter, and only one closes behind `D`
      have hopen : ∀ n < 7, 1 < n → ["[", "A", "[", "C", "]", "D", "]"][n]? = some "[" → n = 2 := by
        decide
      have hmiddle : ∀ n < 7, ["[", "A", "[", "C", "]", "D", "]"][n]? = some "D" → n = 5 := by
        decide
      have hlt : ∀ (i n : Nat) (s : String), [p, q, r, t][i]? = some n →
          ["[", "C", "D", "]"][i]? = some s → n < 7 := by
        intro i n s hn hs
        exact (List.getElem?_eq_some_iff.1 ((hsymbol i n hn).trans hs)).1
      obtain rfl := hopen p (hlt 0 p "[" rfl rfl) (hreaches p (by simp)) (hsymbol 0 p rfl)
      obtain rfl := hmiddle r (hlt 2 r "D" rfl rfl) (hsymbol 2 r rfl)
      obtain rfl : t = 6 := by
        have hlast := hlt 3 t "]" rfl rfl
        have hbehind : 5 < t := by simp at hincreasing; omega
        omega
      have hpair : Side.after.IsPair ["[", "C", "D", "]"] 0 3 :=
        ⟨[], ["C", "D"], [], rfl, by decide, rfl, rfl⟩
      -- but between these two another bracket closes
      obtain ⟨front, inside, rest, heq, hinside, hfront, hlast⟩ := hkeeps 0 3 hpair 2 6 rfl rfl
      have hlength : inside.length = 3 := by omega
      match front, inside, hfront, hlength, heq, hinside with
      | [a, b], [c, d, e], _, _, heq, hinside =>
          simp only [List.cons_append, List.nil_append, List.cons.injEq] at heq
          obtain ⟨-, -, -, rfl, rfl, rfl, -⟩ := heq
          exact absurd hinside (by decide)

end GrowthGrammar
