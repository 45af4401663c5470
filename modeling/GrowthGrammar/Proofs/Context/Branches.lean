import GrowthGrammar.Proofs.Context.Brackets

/-!
# Branches that a pattern enters

When a pattern matches, each of its symbols has been met at some position of the word, in order and
on the requested side. The brackets of the pattern ought to be met at brackets of one branch. They
are, unless the walk *escapes*: it passes the bracket that closes a branch the pattern has entered
while the pattern still waits for another symbol of that branch. Escaping is the only way to go
wrong (`Follows.isFaithful_iff`), and it takes a letter that stands inside a branch itself; from
any other letter a pattern is met branch by branch.
-/

set_option autoImplicit false

namespace GrowthGrammar

/-! ## The moves of a walk -/

namespace Nesting

/-- A nesting that has followed the pattern into a branch knows of every open bracket. -/
def IsConsistent (nesting : Nesting) : Prop :=
  nesting.followed = [] ∨ nesting.depth = nesting.followed.length

/-- Everything that one symbol of the walk can do. -/
inductive Moves (side : Side) (nesting : Nesting) : String → String → Visit → Prop where
  | enter (tracks : nesting.tracks = true) :
      Moves side nesting side.opening side.opening (.matched nesting.enter)
  | finish (tracks : nesting.tracks = true) :
      Moves side nesting side.closing side.closing (.matched nesting.leave)
  | meet {symbol : String} (hopening : symbol ≠ side.opening) (hclosing : symbol ≠ side.closing) :
      Moves side nesting symbol symbol (.matched nesting)
  | pass {wanted : String} : Moves side nesting wanted side.opening (.skipped nesting.pass)
  | leave {wanted : String} : Moves side nesting wanted side.closing (.skipped nesting.leave)
  | skip {wanted symbol : String} (hopening : symbol ≠ side.opening)
      (hclosing : symbol ≠ side.closing) : Moves side nesting wanted symbol (.skipped nesting)
  | refuse {wanted symbol : String} : Moves side nesting wanted symbol .refused

theorem moves_visit (side : Side) (ignored : String → Bool) (nesting : Nesting)
    (wanted symbol : String) :
    nesting.Moves side wanted symbol (nesting.visit side ignored wanted symbol) := by
  unfold visit
  by_cases hwanted : symbol = wanted ∧ nesting.tracks = true
  · rw [if_pos hwanted]
    obtain ⟨rfl, htracks⟩ := hwanted
    rcases side.bracket_cases symbol with rfl | rfl | ⟨hopening, hclosing⟩
    · rw [if_pos rfl]
      exact .enter htracks
    · rw [if_neg side.opening_ne_closing.symm, if_pos rfl]
      exact .finish htracks
    · rw [if_neg hopening, if_neg hclosing]
      exact .meet hopening hclosing
  · rw [if_neg hwanted]
    rcases side.bracket_cases symbol with rfl | rfl | ⟨hopening, hclosing⟩
    · rw [if_pos rfl]
      exact .pass
    · rw [if_neg side.opening_ne_closing.symm, if_pos rfl]
      exact .leave
    · rw [if_neg hopening, if_neg hclosing]
      split
      · exact .refuse
      · exact .skip hopening hclosing

section Consistent

variable {nesting : Nesting}

/-- Symbols count outside of all branches, and inside one that the pattern has opened. -/
theorem IsConsistent.tracks_cases (h : nesting.IsConsistent) (htracks : nesting.tracks = true) :
    (nesting.followed = [] ∧ nesting.depth = 0) ∨
      ∃ followed, nesting.followed = true :: followed ∧ nesting.depth = followed.length + 1 := by
  obtain ⟨depth, followed⟩ := nesting
  simp only [tracks, Bool.or_eq_true, beq_iff_eq] at htracks
  cases followed with
  | nil => exact .inl ⟨rfl, by simpa using htracks⟩
  | cons first followed =>
      have hdepth : depth = followed.length + 1 := by simpa [IsConsistent] using h
      -- a branch is open, so symbols count only if the pattern opened it
      have hfirst : first = true := by simpa [hdepth] using htracks
      exact .inr ⟨followed, by rw [hfirst], hdepth⟩

theorem IsConsistent.enter (h : nesting.IsConsistent) (htracks : nesting.tracks = true) :
    nesting.enter.IsConsistent := by
  refine .inr ?_
  rcases h.tracks_cases htracks with ⟨hfollowed, hdepth⟩ | ⟨followed, hfollowed, hdepth⟩ <;>
    simp [Nesting.enter, hfollowed, hdepth]

theorem IsConsistent.pass (h : nesting.IsConsistent) : nesting.pass.IsConsistent := by
  obtain ⟨depth, followed⟩ := nesting
  cases followed with
  | nil => exact .inl rfl
  | cons first followed =>
      have hdepth : depth = followed.length + 1 := by simpa [IsConsistent] using h
      exact .inr (by simp [Nesting.pass, hdepth])

theorem IsConsistent.leave (h : nesting.IsConsistent) : nesting.leave.IsConsistent := by
  obtain ⟨depth, followed⟩ := nesting
  cases followed with
  | nil => exact .inl rfl
  | cons first followed =>
      have hdepth : depth = followed.length + 1 := by simpa [IsConsistent] using h
      exact .inr (by simp [Nesting.leave, hdepth])

end Consistent

end Nesting

/-! ## The trail of a walk -/

/-- What a walk that meets its pattern leaves behind. -/
structure Trail where
  /-- For each symbol of the pattern, how many symbols the walk has passed before it. -/
  offsets : List Nat
  /-- Whether the walk has passed the end of a branch that the pattern had entered and not yet
  left. -/
  escapes : Bool
  deriving Repr, DecidableEq

namespace Trail

/-- The trail with one more symbol in front, which is the wanted one. -/
def met (trail : Trail) : Trail :=
  ⟨0 :: trail.offsets.map (· + 1), trail.escapes⟩

/-- The trail with one more symbol in front, which is passed. -/
def passed (escapes : Bool) (trail : Trail) : Trail :=
  ⟨trail.offsets.map (· + 1), escapes || trail.escapes⟩

end Trail

/-- The trail of a walk, if it meets the pattern. -/
def trail (side : Side) (ignored : String → Bool) (nesting : Nesting) :
    List String → List String → Option Trail
  | _, [] => some ⟨[], false⟩
  | [], _ :: _ => none
  | symbol :: symbols, wanted :: pattern =>
    match nesting.visit side ignored wanted symbol with
    | .matched next => (trail side ignored next symbols pattern).map Trail.met
    | .skipped next =>
      (trail side ignored next symbols (wanted :: pattern)).map
        (Trail.passed (symbol == side.closing && nesting.followed.head? == some true))
    | .refused => none

/-- A walk succeeds when it leaves a trail. -/
theorem walk_eq_isSome (side : Side) (ignored : String → Bool) (nesting : Nesting)
    (symbols pattern : List String) :
    walk side ignored nesting symbols pattern =
      (trail side ignored nesting symbols pattern).isSome := by
  induction symbols generalizing nesting pattern with
  | nil => cases pattern <;> rfl
  | cons symbol symbols ih =>
      cases pattern with
      | nil => rfl
      | cons wanted pattern =>
          unfold walk trail
          cases nesting.visit side ignored wanted symbol with
          | matched next => simp [ih]
          | skipped next => simp [ih]
          | refused => rfl

/-- The trails that walks can leave, move by move. -/
inductive Trail.Follows (side : Side) : Nesting → List String → List String → Trail → Prop where
  | done {nesting : Nesting} {symbols : List String} :
      Follows side nesting symbols [] ⟨[], false⟩
  | enter {nesting : Nesting} {symbols pattern : List String} {trail : Trail}
      (tracks : nesting.tracks = true) (rest : Follows side nesting.enter symbols pattern trail) :
      Follows side nesting (side.opening :: symbols) (side.opening :: pattern) trail.met
  | finish {nesting : Nesting} {symbols pattern : List String} {trail : Trail}
      (tracks : nesting.tracks = true) (rest : Follows side nesting.leave symbols pattern trail) :
      Follows side nesting (side.closing :: symbols) (side.closing :: pattern) trail.met
  | meet {nesting : Nesting} {symbol : String} {symbols pattern : List String} {trail : Trail}
      (hopening : symbol ≠ side.opening) (hclosing : symbol ≠ side.closing)
      (rest : Follows side nesting symbols pattern trail) :
      Follows side nesting (symbol :: symbols) (symbol :: pattern) trail.met
  | pass {nesting : Nesting} {symbols pattern : List String} {trail : Trail}
      (rest : Follows side nesting.pass symbols pattern trail) :
      Follows side nesting (side.opening :: symbols) pattern (trail.passed false)
  | leave {nesting : Nesting} {symbols pattern : List String} {trail : Trail}
      (rest : Follows side nesting.leave symbols pattern trail) :
      Follows side nesting (side.closing :: symbols) pattern
        (trail.passed (nesting.followed.head? == some true))
  | skip {nesting : Nesting} {symbol : String} {symbols pattern : List String} {trail : Trail}
      (hopening : symbol ≠ side.opening) (hclosing : symbol ≠ side.closing)
      (rest : Follows side nesting symbols pattern trail) :
      Follows side nesting (symbol :: symbols) pattern (trail.passed false)

theorem follows_of_trail {side : Side} {ignored : String → Bool} {nesting : Nesting}
    {symbols pattern : List String} {found : Trail}
    (h : trail side ignored nesting symbols pattern = some found) :
    Trail.Follows side nesting symbols pattern found := by
  induction symbols generalizing nesting pattern found with
  | nil =>
      cases pattern with
      | nil =>
          cases h
          exact .done
      | cons wanted pattern => cases h
  | cons symbol symbols ih =>
      cases pattern with
      | nil =>
          cases h
          exact .done
      | cons wanted pattern =>
          unfold trail at h
          have hmove := nesting.moves_visit side ignored wanted symbol
          -- from here on the visit is known only by the move that it is
          generalize nesting.visit side ignored wanted symbol = visit at h hmove
          have hne := side.opening_ne_closing
          cases hmove with
          | enter tracks =>
              obtain ⟨rest, hrest, rfl⟩ := Option.map_eq_some_iff.1 h
              exact .enter tracks (ih hrest)
          | finish tracks =>
              obtain ⟨rest, hrest, rfl⟩ := Option.map_eq_some_iff.1 h
              exact .finish tracks (ih hrest)
          | meet hopening hclosing =>
              obtain ⟨rest, hrest, rfl⟩ := Option.map_eq_some_iff.1 h
              exact .meet hopening hclosing (ih hrest)
          | pass =>
              obtain ⟨rest, hrest, rfl⟩ := Option.map_eq_some_iff.1 h
              rw [beq_eq_false_iff_ne.2 hne, Bool.false_and]
              exact .pass (ih hrest)
          | leave =>
              obtain ⟨rest, hrest, rfl⟩ := Option.map_eq_some_iff.1 h
              rw [beq_self_eq_true, Bool.true_and]
              exact .leave (ih hrest)
          | skip hopening hclosing =>
              obtain ⟨rest, hrest, rfl⟩ := Option.map_eq_some_iff.1 h
              rw [beq_eq_false_iff_ne.2 hclosing, Bool.false_and]
              exact .skip hopening hclosing (ih hrest)
          | refuse => cases h

namespace Trail

/-! ## Where symbols are met -/

section Offsets

variable {trail : Trail} {escapes : Bool} {i p : Nat}

@[simp] theorem met_offsets_zero : trail.met.offsets[0]? = some p ↔ p = 0 := by
  simp [met, eq_comm]

@[simp] theorem met_offsets_succ :
    trail.met.offsets[i + 1]? = some p ↔ ∃ q, trail.offsets[i]? = some q ∧ q + 1 = p := by
  simp [met]

@[simp] theorem passed_offsets :
    (trail.passed escapes).offsets[i]? = some p ↔ ∃ q, trail.offsets[i]? = some q ∧ q + 1 = p := by
  simp [passed]

end Offsets

/-- The symbols of a pattern are met one by one, each at a symbol like it. -/
structure MeetsAll (symbols pattern : List String) (offsets : List Nat) : Prop where
  length_eq : offsets.length = pattern.length
  increasing : offsets.Pairwise (· < ·)
  symbol_eq : ∀ i p : Nat, offsets[i]? = some p → symbols[p]? = pattern[i]?

theorem MeetsAll.met {trail : Trail} {symbol : String} {symbols pattern : List String}
    (h : MeetsAll symbols pattern trail.offsets) :
    MeetsAll (symbol :: symbols) (symbol :: pattern) trail.met.offsets := by
  obtain ⟨hlength, hincreasing, hsymbol⟩ := h
  refine ⟨by simp [Trail.met, hlength], ?_, ?_⟩
  · refine List.pairwise_cons.2 ⟨by simp, ?_⟩
    exact List.pairwise_map.2 (hincreasing.imp fun hlt => Nat.succ_lt_succ hlt)
  · intro i p hp
    cases i with
    | zero =>
        obtain rfl := met_offsets_zero.1 hp
        rfl
    | succ i =>
        obtain ⟨q, hq, rfl⟩ := met_offsets_succ.1 hp
        exact hsymbol i q hq

theorem MeetsAll.passed {trail : Trail} {symbol : String} {symbols pattern : List String}
    {escapes : Bool} (h : MeetsAll symbols pattern trail.offsets) :
    MeetsAll (symbol :: symbols) pattern (trail.passed escapes).offsets := by
  obtain ⟨hlength, hincreasing, hsymbol⟩ := h
  refine ⟨by simp [Trail.passed, hlength], ?_, ?_⟩
  · exact List.pairwise_map.2 (hincreasing.imp fun hlt => Nat.succ_lt_succ hlt)
  · intro i p hp
    obtain ⟨q, hq, rfl⟩ := passed_offsets.1 hp
    exact hsymbol i q hq

/-- A walk that meets its pattern meets every symbol of it. -/
theorem Follows.meetsAll {side : Side} {nesting : Nesting} {symbols pattern : List String}
    {trail : Trail} (h : Follows side nesting symbols pattern trail) :
    MeetsAll symbols pattern trail.offsets := by
  induction h with
  | done => exact ⟨rfl, .nil, by simp⟩
  | enter tracks rest ih => exact ih.met
  | finish tracks rest ih => exact ih.met
  | meet hopening hclosing rest ih => exact ih.met
  | pass rest ih => exact ih.passed
  | leave rest ih => exact ih.passed
  | skip hopening hclosing rest ih => exact ih.passed

/-! ## Branches that are kept -/

/-- Brackets that are a pair in the pattern are met at a pair. -/
def KeepsPairs (side : Side) (symbols pattern : List String) (offsets : List Nat) : Prop :=
  ∀ i j, side.IsPair pattern i j → ∀ p q : Nat, offsets[i]? = some p → offsets[j]? = some q →
    side.IsPair symbols p q

/-- Of the brackets open around a walk, the number of the one that the pattern has opened when
`k` others that the pattern has opened are inside it. -/
def owned : List Bool → Nat → Option Nat
  | [], _ => none
  | true :: _, 0 => some 0
  | true :: followed, k + 1 => (owned followed k).map (· + 1)
  | false :: followed, k => (owned followed k).map (· + 1)

/-- Pairs are kept, and so are the branches that the pattern has entered before: each of them ends
where the pattern has its end. -/
structure IsFaithful (side : Side) (followed : List Bool) (symbols pattern : List String)
    (offsets : List Nat) : Prop where
  pairs : KeepsPairs side symbols pattern offsets
  pending : ∀ k m, owned followed k = some m → ∀ c p : Nat, side.Closes k pattern c →
    offsets[c]? = some p → side.Closes m symbols p

section Faithful

variable {side : Side} {followed : List Bool} {symbols pattern : List String} {trail : Trail}
  {symbol : String} {escapes : Bool}

/-- The pairs behind a symbol that is met are kept if all are. -/
theorem KeepsPairs.of_met
    (h : KeepsPairs side (symbol :: symbols) (symbol :: pattern) trail.met.offsets) :
    KeepsPairs side symbols pattern trail.offsets := by
  intro i j hpair p q hp hq
  exact Side.isPair_succ.1 (h (i + 1) (j + 1) (Side.isPair_succ.2 hpair) (p + 1) (q + 1)
    (met_offsets_succ.2 ⟨p, hp, rfl⟩) (met_offsets_succ.2 ⟨q, hq, rfl⟩))

/-- A symbol that opens no branch adds no pair. -/
theorem keepsPairs_met (h : symbol ≠ side.opening) :
    KeepsPairs side (symbol :: symbols) (symbol :: pattern) trail.met.offsets ↔
      KeepsPairs side symbols pattern trail.offsets := by
  constructor
  · exact KeepsPairs.of_met
  · intro hkeeps i j hpair p q hp hq
    obtain ⟨j, rfl⟩ : ∃ j', j = j' + 1 := ⟨j - 1, by have := hpair.lt; omega⟩
    cases i with
    | zero => exact absurd (Side.isPair_zero.1 hpair).1 h
    | succ i =>
        obtain ⟨p', hp', rfl⟩ := met_offsets_succ.1 hp
        obtain ⟨q', hq', rfl⟩ := met_offsets_succ.1 hq
        exact Side.isPair_succ.2 (hkeeps i j (Side.isPair_succ.1 hpair) p' q' hp' hq')

theorem keepsPairs_passed :
    KeepsPairs side (symbol :: symbols) pattern (trail.passed escapes).offsets ↔
      KeepsPairs side symbols pattern trail.offsets := by
  constructor
  · intro hkeeps i j hpair p q hp hq
    exact Side.isPair_succ.1 (hkeeps i j hpair (p + 1) (q + 1) (passed_offsets.2 ⟨p, hp, rfl⟩)
      (passed_offsets.2 ⟨q, hq, rfl⟩))
  · intro hkeeps i j hpair p q hp hq
    obtain ⟨p', hp', rfl⟩ := passed_offsets.1 hp
    obtain ⟨q', hq', rfl⟩ := passed_offsets.1 hq
    exact Side.isPair_succ.2 (hkeeps i j hpair p' q' hp' hq')

/-- Where the pattern has entered no branch, there are only its own pairs to keep. -/
theorem isFaithful_nil {offsets : List Nat} :
    IsFaithful side [] symbols pattern offsets ↔ KeepsPairs side symbols pattern offsets := by
  constructor
  · exact IsFaithful.pairs
  · intro hkeeps
    refine ⟨hkeeps, ?_⟩
    intro k m hm
    cases hm

/-- When a branch is entered, the bracket that is met waits for its end from then on. -/
theorem isFaithful_enter :
    IsFaithful side followed (side.opening :: symbols) (side.opening :: pattern)
      trail.met.offsets ↔
      IsFaithful side (true :: followed) symbols pattern trail.offsets := by
  constructor
  · rintro ⟨hpairs, hpending⟩
    refine ⟨hpairs.of_met, ?_⟩
    intro k m hm c p hc hp
    cases k with
    | zero =>
        -- the branch that is entered here: its end is the other half of a pair
        obtain rfl : 0 = m := Option.some.inj hm
        have hpair := hpairs 0 (c + 1) (Side.isPair_zero.2 ⟨rfl, hc⟩) 0 (p + 1)
          (met_offsets_zero.2 rfl) (met_offsets_succ.2 ⟨p, hp, rfl⟩)
        exact (Side.isPair_zero.1 hpair).2
    | succ k =>
        obtain ⟨n, hn, rfl⟩ := Option.map_eq_some_iff.1 hm
        exact Side.closes_opening.1 (hpending k n hn (c + 1) (p + 1) (Side.closes_opening.2 hc)
          (met_offsets_succ.2 ⟨p, hp, rfl⟩))
  · rintro ⟨hpairs, hpending⟩
    refine ⟨?_, ?_⟩
    · intro i j hpair p q hp hq
      obtain ⟨j, rfl⟩ : ∃ j', j = j' + 1 := ⟨j - 1, by have := hpair.lt; omega⟩
      obtain ⟨q', hq', rfl⟩ := met_offsets_succ.1 hq
      cases i with
      | zero =>
          obtain rfl := met_offsets_zero.1 hp
          -- the pair that begins here ends where the branch that is waited for ends
          have hclose := (Side.isPair_zero.1 hpair).2
          exact Side.isPair_zero.2 ⟨rfl, hpending 0 0 rfl j q' hclose hq'⟩
      | succ i =>
          obtain ⟨p', hp', rfl⟩ := met_offsets_succ.1 hp
          exact Side.isPair_succ.2 (hpairs i j (Side.isPair_succ.1 hpair) p' q' hp' hq')
    · intro k m hm c p hc hp
      cases c with
      | zero => exact absurd (Side.closes_zero.1 hc).1 side.opening_ne_closing
      | succ c =>
          obtain ⟨q, hq, rfl⟩ := met_offsets_succ.1 hp
          have howned : owned (true :: followed) (k + 1) = some (m + 1) := by simp [owned, hm]
          exact Side.closes_opening.2 (hpending (k + 1) (m + 1) howned c q
            (Side.closes_opening.1 hc) hq)

/-- When the pattern leaves the branch that it entered last, that branch has ended there. -/
theorem isFaithful_finish :
    IsFaithful side (true :: followed) (side.closing :: symbols) (side.closing :: pattern)
      trail.met.offsets ↔
      IsFaithful side followed symbols pattern trail.offsets := by
  have hpairs : KeepsPairs side (side.closing :: symbols) (side.closing :: pattern)
      trail.met.offsets ↔ KeepsPairs side symbols pattern trail.offsets :=
    keepsPairs_met side.opening_ne_closing.symm
  constructor
  · rintro ⟨hkeeps, hpending⟩
    refine ⟨hpairs.1 hkeeps, ?_⟩
    intro k m hm c p hc hp
    have howned : owned (true :: followed) (k + 1) = some (m + 1) := by simp [owned, hm]
    exact Side.closes_closing.1 (hpending (k + 1) (m + 1) howned (c + 1) (p + 1)
      (Side.closes_closing.2 hc) (met_offsets_succ.2 ⟨p, hp, rfl⟩))
  · rintro ⟨hkeeps, hpending⟩
    refine ⟨hpairs.2 hkeeps, ?_⟩
    intro k m hm c p hc hp
    cases k with
    | zero =>
        -- the branch that the pattern leaves here
        obtain rfl : 0 = m := Option.some.inj hm
        cases c with
        | zero =>
            obtain rfl := met_offsets_zero.1 hp
            exact Side.closes_zero.2 ⟨rfl, rfl⟩
        | succ c => exact absurd hc Side.not_closes_closing
    | succ k =>
        obtain ⟨n, hn, rfl⟩ := Option.map_eq_some_iff.1 hm
        cases c with
        | zero => exact absurd (Side.closes_zero.1 hc).2 (Nat.succ_ne_zero k)
        | succ c =>
            obtain ⟨q, hq, rfl⟩ := met_offsets_succ.1 hp
            exact Side.closes_closing.2 (hpending k n hn c q (Side.closes_closing.1 hc) hq)

theorem isFaithful_meet (hopening : symbol ≠ side.opening) (hclosing : symbol ≠ side.closing) :
    IsFaithful side followed (symbol :: symbols) (symbol :: pattern) trail.met.offsets ↔
      IsFaithful side followed symbols pattern trail.offsets := by
  constructor
  · rintro ⟨hkeeps, hpending⟩
    refine ⟨(keepsPairs_met hopening).1 hkeeps, ?_⟩
    intro k m hm c p hc hp
    exact (Side.closes_plain hopening hclosing).1 (hpending k m hm (c + 1) (p + 1)
      ((Side.closes_plain hopening hclosing).2 hc) (met_offsets_succ.2 ⟨p, hp, rfl⟩))
  · rintro ⟨hkeeps, hpending⟩
    refine ⟨(keepsPairs_met hopening).2 hkeeps, ?_⟩
    intro k m hm c p hc hp
    cases c with
    | zero => exact absurd (Side.closes_zero.1 hc).1 hclosing
    | succ c =>
        obtain ⟨q, hq, rfl⟩ := met_offsets_succ.1 hp
        exact (Side.closes_plain hopening hclosing).2 (hpending k m hm c q
          ((Side.closes_plain hopening hclosing).1 hc) hq)

/-- Passing a symbol moves every branch that is waited for by the level the symbol opens or
closes. -/
theorem isFaithful_passed {next : List Bool} (howned : ∀ k,
      (∀ m, owned followed k = some m → ∃ n, owned next k = some n ∧ ∀ p : Nat,
        side.Closes m (symbol :: symbols) (p + 1) ↔ side.Closes n symbols p) ∧
      (∀ n, owned next k = some n → ∃ m, owned followed k = some m)) :
    IsFaithful side followed (symbol :: symbols) pattern (trail.passed escapes).offsets ↔
      IsFaithful side next symbols pattern trail.offsets := by
  constructor
  · rintro ⟨hkeeps, hpending⟩
    refine ⟨keepsPairs_passed.1 hkeeps, ?_⟩
    intro k n hn c p hc hp
    obtain ⟨m, hm⟩ := (howned k).2 n hn
    obtain ⟨n', hn', hcloses⟩ := (howned k).1 m hm
    obtain rfl : n = n' := Option.some.inj (hn.symm.trans hn')
    exact (hcloses p).1 (hpending k m hm c (p + 1) hc (passed_offsets.2 ⟨p, hp, rfl⟩))
  · rintro ⟨hkeeps, hpending⟩
    refine ⟨keepsPairs_passed.2 hkeeps, ?_⟩
    intro k m hm c p hc hp
    obtain ⟨n, hn, hcloses⟩ := (howned k).1 m hm
    obtain ⟨q, hq, rfl⟩ := passed_offsets.1 hp
    exact (hcloses q).2 (hpending k n hn c q hc hq)

theorem isFaithful_pass (nesting : Nesting) :
    IsFaithful side nesting.followed (side.opening :: symbols) pattern
      (trail.passed escapes).offsets ↔
      IsFaithful side nesting.pass.followed symbols pattern trail.offsets := by
  obtain ⟨depth, followed⟩ := nesting
  cases followed with
  | nil => exact isFaithful_nil.trans (keepsPairs_passed.trans isFaithful_nil.symm)
  | cons first followed =>
      refine isFaithful_passed fun k => ⟨?_, ?_⟩
      · intro m hm
        have hm : owned (first :: followed) k = some m := hm
        exact ⟨m + 1, by simp [Nesting.pass, owned, hm], fun p => Side.closes_opening⟩
      · intro n hn
        obtain ⟨m, hm, -⟩ := Option.map_eq_some_iff.1 hn
        exact ⟨m, hm⟩

theorem isFaithful_leave :
    IsFaithful side (false :: followed) (side.closing :: symbols) pattern
      (trail.passed escapes).offsets ↔ IsFaithful side followed symbols pattern trail.offsets := by
  refine isFaithful_passed fun k => ⟨?_, ?_⟩
  · intro m hm
    obtain ⟨n, hn, rfl⟩ := Option.map_eq_some_iff.1 hm
    exact ⟨n, hn, fun p => Side.closes_closing⟩
  · intro n hn
    exact ⟨n + 1, by simp [owned, hn]⟩

theorem isFaithful_skip (hopening : symbol ≠ side.opening) (hclosing : symbol ≠ side.closing) :
    IsFaithful side followed (symbol :: symbols) pattern (trail.passed escapes).offsets ↔
      IsFaithful side followed symbols pattern trail.offsets := by
  refine isFaithful_passed fun k => ⟨?_, ?_⟩
  · intro m hm
    exact ⟨m, hm, fun p => Side.closes_plain hopening hclosing⟩
  · intro n hn
    exact ⟨n, hn⟩

/-- If a branch that the pattern has entered ends while the pattern waits for its end, the pattern
finds that end too late. -/
theorem not_isFaithful_of_escape (hlength : trail.offsets.length = pattern.length)
    (hlevel : side.level (followed.count true + 1) pattern = some 0) :
    ¬IsFaithful side (true :: followed) (side.closing :: symbols) pattern
      (trail.passed escapes).offsets := by
  rintro ⟨-, hpending⟩
  rw [show followed.count true + 1 = 0 + 1 + followed.count true by omega] at hlevel
  -- the pattern still has the end of that branch before it, and meets it somewhere later
  obtain ⟨c, hc⟩ := Side.exists_closes hlevel (Nat.zero_le _)
  have hlt : c < trail.offsets.length := by
    obtain ⟨inside, rest, hpattern, -, rfl⟩ := hc
    simp [hlength, hpattern]
  have hp : (trail.passed escapes).offsets[c]? = some (trail.offsets[c] + 1) :=
    passed_offsets.2 ⟨_, List.getElem?_eq_getElem hlt, rfl⟩
  exact Side.not_closes_closing (hpending 0 0 rfl c _ hc hp)

end Faithful

section Walks

variable {side : Side} {nesting : Nesting} {symbols pattern : List String} {trail : Trail}

/-- **A walk keeps the branches of its pattern unless it escapes.** The induction is on the walk.
The pattern that is left closes as many brackets as it has open, and each of those is a bracket
that the walk has followed it into. -/
theorem Follows.isFaithful_iff (h : Follows side nesting symbols pattern trail)
    (hnesting : nesting.IsConsistent)
    (hlevel : side.level (nesting.followed.count true) pattern = some 0) :
    IsFaithful side nesting.followed symbols pattern trail.offsets ↔ trail.escapes = false := by
  induction h with
  | done =>
      refine iff_of_true ⟨?_, ?_⟩ rfl
      · intro i j hpair
        exact absurd hpair.last_lt (Nat.not_lt_zero j)
      · intro k m hm c p hc hp
        cases hp
  | enter tracks rest ih =>
      refine isFaithful_enter.trans (ih (hnesting.enter tracks) ?_)
      rw [Side.level_opening] at hlevel
      simpa [Nesting.enter] using hlevel
  | @finish nesting symbols pattern trail tracks rest ih =>
      rcases hnesting.tracks_cases tracks with ⟨hfollowed, -⟩ | ⟨followed, hfollowed, -⟩
      · -- a pattern that has entered no branch has none to leave
        rw [hfollowed, List.count_nil, Side.level_closing_zero] at hlevel
        cases hlevel
      · have hleave : nesting.leave.followed = followed := by simp [Nesting.leave, hfollowed]
        rw [hfollowed, List.count_cons_self, Side.level_closing_succ] at hlevel
        have hrest := ih hnesting.leave (by rwa [hleave])
        rw [hleave] at hrest
        rw [hfollowed]
        exact isFaithful_finish.trans hrest
  | meet hopening hclosing rest ih =>
      rw [Side.level_plain hopening hclosing] at hlevel
      exact (isFaithful_meet hopening hclosing).trans (ih hnesting hlevel)
  | @pass nesting symbols pattern trail rest ih =>
      have hcount : nesting.pass.followed.count true = nesting.followed.count true := by
        cases hfollowed : nesting.followed <;> simp [Nesting.pass, hfollowed]
      exact (isFaithful_pass nesting).trans (ih hnesting.pass (by rwa [hcount]))
  | @leave nesting symbols pattern trail rest ih =>
      obtain ⟨depth, followed⟩ := nesting
      cases followed with
      | nil =>
          -- the pattern has entered no branch that could end here
          have hrest := ih hnesting.leave hlevel
          exact isFaithful_nil.trans (keepsPairs_passed.trans (isFaithful_nil.symm.trans hrest))
      | cons first followed =>
          cases first with
          | true =>
              -- here the walk escapes
              refine iff_of_false ?_ (by simp [Trail.passed])
              exact not_isFaithful_of_escape rest.meetsAll.length_eq (by simpa using hlevel)
          -- a branch beside the pattern ends
          | false =>
              have hrest := ih hnesting.leave (by simpa [Nesting.leave] using hlevel)
              exact isFaithful_leave.trans hrest
  | skip hopening hclosing rest ih =>
      exact (isFaithful_skip hopening hclosing).trans (ih hnesting hlevel)

/-- Where a row never closes more brackets than are open, the pattern closes at most those that the
walk has followed it into, and fewer if the walk escapes. -/
theorem Follows.exists_level (h : Follows side nesting symbols pattern trail)
    (hnesting : nesting.IsConsistent) (hsymbols : side.level nesting.depth symbols ≠ none) :
    ∃ after, side.level (nesting.followed.count true) pattern = some after ∧
      (trail.escapes = true → 0 < after) := by
  induction h with
  | @done nesting symbols => exact ⟨nesting.followed.count true, by simp, by simp⟩
  | @enter nesting symbols pattern trail tracks rest ih =>
      rw [Side.level_opening] at hsymbols ⊢
      have hcount : nesting.enter.followed.count true = nesting.followed.count true + 1 := by
        simp [Nesting.enter]
      rw [← hcount]
      exact ih (hnesting.enter tracks) hsymbols
  | @finish nesting symbols pattern trail tracks rest ih =>
      rcases hnesting.tracks_cases tracks with ⟨-, hdepth⟩ | ⟨followed, hfollowed, hdepth⟩
      -- outside of all branches the row has none to close
      · rw [hdepth] at hsymbols
        exact absurd Side.level_closing_zero hsymbols
      · rw [hdepth, Side.level_closing_succ] at hsymbols
        have hcount : nesting.followed.count true = nesting.leave.followed.count true + 1 := by
          simp [Nesting.leave, hfollowed]
        have hleave : nesting.leave.depth = followed.length := by simp [Nesting.leave, hdepth]
        rw [hcount, Side.level_closing_succ]
        exact ih hnesting.leave (by rwa [hleave])
  | meet hopening hclosing rest ih =>
      rw [Side.level_plain hopening hclosing] at hsymbols ⊢
      exact ih hnesting hsymbols
  | @pass nesting symbols pattern trail rest ih =>
      rw [Side.level_opening] at hsymbols
      have hcount : nesting.pass.followed.count true = nesting.followed.count true := by
        cases hfollowed : nesting.followed <;> simp [Nesting.pass, hfollowed]
      rw [← hcount]
      exact ih hnesting.pass hsymbols
  | @leave nesting symbols pattern trail rest ih =>
      obtain ⟨depth, followed⟩ := nesting
      cases depth with
      | zero => exact absurd Side.level_closing_zero hsymbols
      | succ depth =>
          rw [Side.level_closing_succ] at hsymbols
          obtain ⟨after, hafter, hescapes⟩ := ih hnesting.leave hsymbols
          cases followed with
          | nil => exact ⟨after, hafter, hescapes⟩
          | cons first followed =>
              cases first with
              | false => exact ⟨after, by simpa [Nesting.leave] using hafter, hescapes⟩
              | true =>
                  -- here the walk escapes, and one bracket of the pattern stays open
                  refine ⟨after + 1, ?_, fun _ => Nat.succ_pos after⟩
                  rw [List.count_cons_self]
                  exact Side.level_succ hafter
  | skip hopening hclosing rest ih =>
      rw [Side.level_plain hopening hclosing] at hsymbols
      exact ih hnesting hsymbols

end Walks

end Trail

end GrowthGrammar
