import GrowthGrammar.Proofs.Derivation.Descent
import GrowthGrammar.Proofs.Outcome
import Mathlib.Data.List.Infix

/-!
# Sets of alternatives inside sets

All sets on the way down through a successor are drawn from with one seed, the seed of the
occurrence. So every set on the way is drawn from as if it stood alone at the top, and the draws
along a path are not independent of each other: a path is taken at an occurrence exactly if each
set on it, put at the top, has the index on the path drawn at that same occurrence
(`picks_path_iff`). Two sets with the same weights always have the same index drawn, so an
alternative of a nested set can be out of reach although it carries weight
(`exists_path_never_picked`).
-/

set_option autoImplicit false

namespace GrowthGrammar

/-! ## Paths -/

/-- Where a path leads from a successor. Each step of a path is a set of alternatives and the index
of the one that is taken. -/
inductive Successor.LeadsTo :
    Successor → List (List (Successor × Float) × Nat) → Successor → Prop where
  | here (successor : Successor) : LeadsTo successor [] successor
  | into {alternatives : List (Successor × Float)} {pick : Nat} {alternative : Successor × Float}
      {path : List (List (Successor × Float) × Nat)} {inner : Successor}
      (taken : alternatives[pick]? = some alternative)
      (behind : LeadsTo alternative.1 path inner) :
      LeadsTo (.stochastic alternatives) ((alternatives, pick) :: path) inner

theorem Successor.LeadsTo.eq_of_nil {successor inner : Successor}
    (h : successor.LeadsTo [] inner) : inner = successor := by
  cases h
  rfl

section Descent

variable {sampler : Sampler} {seed : String} {alternatives : List (Successor × Float)}
  {alternative : Successor × Float} {pick : Nat} {successor inner : Successor}
  {path : List (List (Successor × Float) × Nat)}

/-- The first draw is for the weights of the set. -/
theorem exists_outcomes_stochastic (sampler : Sampler) (seed : String)
    (alternatives : List (Successor × Float)) :
    ∃ rest, ((Successor.stochastic alternatives).descend sampler seed).draws.map Draw.outcome =
      (sampler seed (alternatives.map Prod.snd)).toOption :: rest := by
  rw [Successor.descend]
  cases sampler seed (alternatives.map Prod.snd) with
  | error cause => exact ⟨[], rfl⟩
  | ok pick => exact ⟨_, rfl⟩

/-- Once an alternative is picked, the descent goes on from there. -/
theorem descend_stochastic (taken : alternatives[pick]? = some alternative)
    (hpick : sampler seed (alternatives.map Prod.snd) = .ok pick) :
    ((Successor.stochastic alternatives).descend sampler seed).draws.map Draw.outcome =
        some pick :: (alternative.1.descend sampler seed).draws.map Draw.outcome ∧
      ((Successor.stochastic alternatives).descend sampler seed).leaf =
        (alternative.1.descend sampler seed).leaf := by
  rw [Successor.descend]
  simp only [hpick, descendInto_eq, taken, Option.map_some, Option.getD_some, List.map_cons]
  exact ⟨trivial, trivial⟩

/-- The indices along a path are drawn exactly if the sampler picks each of them for the weights of
its set, all for one seed. -/
theorem Successor.LeadsTo.isPrefix_outcomes_iff (h : successor.LeadsTo path inner) :
    (path.map fun step => some step.2) <+: (successor.descend sampler seed).draws.map Draw.outcome ↔
      ∀ step ∈ path, sampler seed (step.1.map Prod.snd) = .ok step.2 := by
  induction h with
  | here successor => simp
  | @into alternatives pick alternative path inner taken behind ih =>
      rw [List.map_cons, List.forall_mem_cons, ← ih]
      by_cases hpick : sampler seed (alternatives.map Prod.snd) = .ok pick
      · rw [(descend_stochastic taken hpick).1, List.cons_prefix_cons]
        exact and_congr_left' (iff_of_true rfl hpick)
      · obtain ⟨rest, houtcomes⟩ := exists_outcomes_stochastic sampler seed alternatives
        rw [houtcomes, List.cons_prefix_cons]
        refine iff_of_false (fun hboth => hpick ?_) (fun hboth => hpick hboth.1)
        exact Outcome.toOption_eq_some_iff.1 hboth.1.symm

/-- If they are drawn, the descent goes on as it would from the end of the path. -/
theorem Successor.LeadsTo.leaf_descend (h : successor.LeadsTo path inner)
    (hdrawn : ∀ step ∈ path, sampler seed (step.1.map Prod.snd) = .ok step.2) :
    (successor.descend sampler seed).leaf = (inner.descend sampler seed).leaf := by
  induction h with
  | here successor => rfl
  | into taken behind ih =>
      obtain ⟨hpick, hpath⟩ := List.forall_mem_cons.1 hdrawn
      rw [(descend_stochastic taken hpick).2, ih hpath]

/-- Then the draws are those along the path, and those made from its end. -/
theorem Successor.LeadsTo.outcomes_descend (h : successor.LeadsTo path inner)
    (hdrawn : ∀ step ∈ path, sampler seed (step.1.map Prod.snd) = .ok step.2) :
    (successor.descend sampler seed).draws.map Draw.outcome =
      (path.map fun step => some step.2) ++
        (inner.descend sampler seed).draws.map Draw.outcome := by
  induction h with
  | here successor => rfl
  | into taken behind ih =>
      obtain ⟨hpick, hpath⟩ := List.forall_mem_cons.1 hdrawn
      rw [(descend_stochastic taken hpick).1, ih hpath]
      rfl

/-- Every step of a path takes an alternative that is there. -/
theorem Successor.LeadsTo.exists_taken (h : successor.LeadsTo path inner) :
    ∀ step ∈ path, ∃ alternative, step.1[step.2]? = some alternative := by
  induction h with
  | here successor => simp
  | into taken behind ih => exact List.forall_mem_cons.2 ⟨⟨_, taken⟩, ih⟩

/-- A descent ends at a leaf at the end of a path that the sampler picks. -/
theorem exists_path_of_descend {leaf : Leaf} (successor : Successor)
    (h : (successor.descend sampler seed).leaf = .ok leaf) :
    ∃ path, successor.LeadsTo path leaf.successor ∧
      ∀ step ∈ path, sampler seed (step.1.map Prod.snd) = .ok step.2 := by
  have hdescends := successor.descends sampler seed
  generalize successor.descend sampler seed = descent at h hdescends
  induction hdescends with
  | leaf found =>
      obtain rfl := Except.ok.inj h
      exact ⟨[], .here _, List.forall_mem_nil _⟩
  | failed fails => cases h
  | missed picks absent => cases h
  | into picks taken behind ih =>
      obtain ⟨path, hpath, hdrawn⟩ := ih h
      exact ⟨_ :: path, .into taken hpath, List.forall_mem_cons.2 ⟨picks, hdrawn⟩⟩

end Descent

/-! ## Picks at an occurrence -/

namespace Setting

/-- What the draws for an occurrence under a rule pick, in order. -/
def picks (setting : Setting) (rule : Rule) (occurrence : Occurrence) : List (Option Nat) :=
  (setting.draws rule occurrence).map Draw.outcome

variable {setting : Setting} {rule : Rule} {occurrence : Occurrence} {successor inner : Successor}
  {path : List (List (Successor × Float) × Nat)}

theorem picks_eq (setting : Setting) (rule : Rule) (occurrence : Occurrence)
    (successor : Successor) :
    setting.picks { rule with successor } occurrence =
      if setting.admits rule occurrence then
        (successor.descend setting.sampler (seed occurrence)).draws.map Draw.outcome
      else [] := by
  rw [picks, draws, apply_ite (List.map Draw.outcome)]
  rfl

/-- A path is picked at an occurrence to which the rule applies if the sampler picks each of its
steps for the seed of the occurrence. -/
theorem isPrefix_picks_iff (h : rule.successor.LeadsTo path inner) (hpath : path ≠ []) :
    (path.map fun step => some step.2) <+: setting.picks rule occurrence ↔
      setting.admits rule occurrence = true ∧
        ∀ step ∈ path, setting.sampler (seed occurrence) (step.1.map Prod.snd) = .ok step.2 := by
  have hpicks := setting.picks_eq rule occurrence rule.successor
  rw [show { rule with successor := rule.successor } = rule from rfl] at hpicks
  rw [hpicks, ← h.isPrefix_outcomes_iff]
  split
  · next hadmits => simp [hadmits]
  · next hadmits => simp [hadmits, hpath]

/-- So is an index of a set at the top of a rule. -/
theorem singleton_isPrefix_picks_iff {alternatives : List (Successor × Float)} {pick : Nat}
    {alternative : Successor × Float} (taken : alternatives[pick]? = some alternative) :
    [some pick] <+: setting.picks { rule with successor := .stochastic alternatives } occurrence ↔
      setting.admits rule occurrence = true ∧
        setting.sampler (seed occurrence) (alternatives.map Prod.snd) = .ok pick := by
  have hpath : ({ rule with successor := .stochastic alternatives } : Rule).successor.LeadsTo
      [(alternatives, pick)] alternative.1 := .into taken (.here _)
  refine (isPrefix_picks_iff hpath (List.cons_ne_nil _ _)).trans (and_congr Iff.rfl ?_)
  simp

/-- Two sets with the same weights have the same index picked. -/
theorem pick_eq_of_isPrefix_picks (h : rule.successor.LeadsTo path inner)
    (hpicked : (path.map fun step => some step.2) <+: setting.picks rule occurrence)
    {first second : List (Successor × Float) × Nat} (hfirst : first ∈ path)
    (hsecond : second ∈ path) (hweights : first.1.map Prod.snd = second.1.map Prod.snd) :
    first.2 = second.2 := by
  have hdrawn := ((isPrefix_picks_iff h (List.ne_nil_of_mem hfirst)).1 hpicked).2
  have hboth := (hdrawn first hfirst).symm.trans (hweights ▸ hdrawn second hsecond)
  exact Except.ok.inj hboth

/-- **One seed for all sets.** A path through nested sets is picked at an occurrence exactly if each
set on it, put at the top of the rule, has the index on the path picked at that occurrence. The rule
then does what it would do with the end of the path for its successor. Sets with the same weights
never have different indices picked. -/
theorem picks_path_iff (setting : Setting) {rule : Rule}
    {path : List (List (Successor × Float) × Nat)} {inner : Successor}
    (h : rule.successor.LeadsTo path inner) (occurrence : Occurrence) :
    ((path.map fun step => some step.2) <+: setting.picks rule occurrence ↔
      ∀ step ∈ path,
        [some step.2] <+: setting.picks { rule with successor := .stochastic step.1 } occurrence) ∧
    ((path.map fun step => some step.2) <+: setting.picks rule occurrence →
      setting.resolve rule occurrence =
        setting.resolve { rule with successor := inner } occurrence) ∧
    ∀ first ∈ path, ∀ second ∈ path, first.1.map Prod.snd = second.1.map Prod.snd →
      first.2 ≠ second.2 →
        ¬(path.map fun step => some step.2) <+: setting.picks rule occurrence := by
  refine ⟨?_, fun hpicked => ?_, fun first hfirst second hsecond hweights hne hpicked => ?_⟩
  · by_cases hpath : path = []
    · subst hpath
      simp
    · rw [isPrefix_picks_iff h hpath]
      constructor
      · rintro ⟨hadmits, hdrawn⟩ step hstep
        obtain ⟨alternative, taken⟩ := h.exists_taken step hstep
        exact (singleton_isPrefix_picks_iff taken).2 ⟨hadmits, hdrawn step hstep⟩
      · intro hsteps
        have hstep : ∀ step ∈ path, setting.admits rule occurrence = true ∧
            setting.sampler (seed occurrence) (step.1.map Prod.snd) = .ok step.2 := by
          intro step hstep
          obtain ⟨alternative, taken⟩ := h.exists_taken step hstep
          exact (singleton_isPrefix_picks_iff taken).1 (hsteps step hstep)
        obtain ⟨step, hmem⟩ := List.exists_mem_of_ne_nil path hpath
        exact ⟨(hstep step hmem).1, fun step hmem => (hstep step hmem).2⟩
  · by_cases hpath : path = []
    · subst hpath
      obtain rfl : inner = rule.successor := h.eq_of_nil
      rfl
    · obtain ⟨hadmits, hdrawn⟩ := (isPrefix_picks_iff h hpath).1 hpicked
      have hinner : setting.admits { rule with successor := inner } occurrence = true := hadmits
      rw [resolve, resolve, if_pos hadmits, if_pos hinner, h.leaf_descend hdrawn]
  · exact hne (pick_eq_of_isPrefix_picks h hpicked hfirst hsecond hweights)

/-- A choice between B and C. -/
def letterChoice (first second : Float) : List (Successor × Float) :=
  [(.word [⟨"B", []⟩], first), (.word [⟨"C", []⟩], second)]

/-- A rule of A with that choice inside an even choice between it and D. -/
def choosing (first second : Float) : Rule where
  symbol := "A"
  successor := .stochastic
    [(.stochastic (letterChoice first second), 1), (.word [⟨"D", []⟩], 1)]
  surroundings := none
  condition := none
  params := []

/-- The path to C. -/
theorem leadsTo_choosing (first second : Float) :
    (choosing first second).successor.LeadsTo
      [([(.stochastic (letterChoice first second), 1), (.word [⟨"D", []⟩], 1)], 0),
        (letterChoice first second, 1)] (.word [⟨"C", []⟩]) :=
  .into rfl (.into rfl (.here _))

/-- C is only put if the path to it is picked. -/
theorem isPrefix_picks_of_resolve_choosing {first second : Float}
    (h : setting.resolve (choosing first second) occurrence =
      .ok (.replace (.word [⟨"C", []⟩]))) :
    [some 0, some 1] <+: setting.picks (choosing first second) occurrence := by
  refine (isPrefix_picks_iff (leadsTo_choosing first second) (List.cons_ne_nil _ _)).2 ?_
  by_cases hadmits : setting.admits (choosing first second) occurrence = true
  · rw [resolve, if_pos hadmits] at h
    have houter : setting.sampler (seed occurrence) [1, 1] = .ok 0 := by
      match hpick : setting.sampler (seed occurrence) [1, 1] with
      | .error cause => simp [choosing, Successor.descend, hpick] at h
      | .ok 0 => rfl
      | .ok 1 => simp [choosing, Successor.descend, descendInto_eq, hpick, resolveLeaf] at h
      | .ok (pick + 2) => simp [choosing, Successor.descend, descendInto_eq, hpick] at h
    have hinner : setting.sampler (seed occurrence) [first, second] = .ok 1 := by
      simp only [choosing, letterChoice, Successor.descend, descendInto_eq, List.map_cons,
        List.map_nil, houter] at h
      match hpick : setting.sampler (seed occurrence) [first, second] with
      | .error cause => simp [Successor.descend, hpick] at h
      | .ok 0 => simp [Successor.descend, descendInto_eq, hpick, resolveLeaf] at h
      | .ok 1 => rfl
      | .ok (pick + 2) => simp [Successor.descend, descendInto_eq, hpick] at h
    exact ⟨hadmits, List.forall_mem_cons.2 ⟨houter, List.forall_mem_singleton.2 hinner⟩⟩
  · simp [resolve, hadmits] at h

/-- If C has three times the weight of B, it is put for an A at the beginning. -/
theorem picks_path_iff_choosing :
    let setting : Setting := ⟨⟨latinCapitals, drawingMarks⟩, Table.empty, Sampler.seeded⟩
    let occurrence : Occurrence := ⟨[⟨"A", []⟩], 0, ⟨"A", []⟩⟩
    [some 0, some 1] <+: setting.picks (choosing 1 3) occurrence ∧
      [some 1] <+:
        setting.picks { choosing 1 3 with successor := .stochastic (letterChoice 1 3) } occurrence ∧
      setting.resolve (choosing 1 3) occurrence = .ok (.replace (.word [⟨"C", []⟩])) := by
  intro setting occurrence
  have hpicks : setting.picks (choosing 1 3) occurrence = [some 0, some 1] := by decide +kernel
  obtain ⟨hiff, hresolve, -⟩ := picks_path_iff setting (leadsTo_choosing 1 3) occurrence
  have hpicked : [some 0, some 1] <+: setting.picks (choosing 1 3) occurrence := by
    rw [hpicks]
  refine ⟨hpicked, hiff.1 hpicked _ (List.mem_cons_of_mem _ List.mem_cons_self), ?_⟩
  rw [hresolve hpicked]
  rfl

/-- Weights that are all positive, and an alternative that no occurrence at any position is
replaced by: the outer set has its first index drawn at position zero, the inner set alone has its
second index drawn at position one, and yet the second index is never drawn after the first. -/
theorem exists_path_never_picked :
    Sampler.seeded (occurrenceSeed "A" 0) [1, 1] = .ok 0 ∧
      Sampler.seeded (occurrenceSeed "A" 1) [1, 1] = .ok 1 ∧
      ∀ (setting : Setting) (occurrence : Occurrence),
        ¬[some 0, some 1] <+: setting.picks (choosing 1 1) occurrence ∧
        setting.resolve (choosing 1 1) occurrence ≠ .ok (.replace (.word [⟨"C", []⟩])) := by
  refine ⟨by decide +kernel, by decide +kernel, fun setting occurrence => ?_⟩
  have hnever : ¬[some 0, some 1] <+: setting.picks (choosing 1 1) occurrence := by
    intro hpicked
    have heq := pick_eq_of_isPrefix_picks (leadsTo_choosing 1 1) hpicked List.mem_cons_self
      (List.mem_cons_of_mem _ List.mem_cons_self) rfl
    exact absurd heq (by decide)
  exact ⟨hnever, fun hresolve => hnever (isPrefix_picks_of_resolve_choosing hresolve)⟩

end Setting

end GrowthGrammar
