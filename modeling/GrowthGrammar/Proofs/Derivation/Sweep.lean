import GrowthGrammar.Derivation.Pass
import Mathlib.Data.List.OfFn
import Mathlib.Logic.Function.Iterate

/-!
# Sweeps and runs

A pass is carried out as one sweep over the word, which has the letters before an occurrence already
replaced when it comes to it. What it puts together is nevertheless the word of the images and the
list of the diagnostics, each taken from the word before the pass (`letters_sweep`,
`diagnostics_sweep`). A run repeats the pass on what the pass before has left (`word_run`), and
its diagnostics are those of its passes, by pass and then by position (`mem_diagnostics_run`,
`pairwise_diagnostics_run`).
-/

set_option autoImplicit false

namespace GrowthGrammar

/-! ## Occurrences -/

namespace Word

/-- The occurrence at a position of a word. -/
def occurrence (word : Word) (i : Fin word.length) : Occurrence :=
  ⟨word, i, word[i]⟩

/-- A word has one occurrence for each position, in order. -/
theorem occurrences_eq_ofFn (word : Word) : word.occurrences = List.ofFn word.occurrence := by
  refine List.ext_getElem (by simp [occurrences]) fun i hi _ => ?_
  simp [occurrences, Word.occurrence]

theorem map_letter_occurrences (word : Word) : word.occurrences.map Occurrence.letter = word := by
  rw [Word.occurrences, List.map_map]
  exact List.zipIdx_map_fst 0 word

theorem mem_occurrences_iff {word : Word} {occurrence : Occurrence} :
    occurrence ∈ word.occurrences ↔ ∃ i, word.occurrence i = occurrence := by
  rw [occurrences_eq_ofFn, List.mem_ofFn]

/-- The positions of the occurrences increase. -/
theorem pairwise_occurrences (word : Word) :
    word.occurrences.Pairwise fun first second => first.index < second.index := by
  rw [occurrences_eq_ofFn, List.pairwise_ofFn]
  intro i j hij
  exact hij

end Word

namespace Setting

variable {setting : Setting} {rules : List Rule}

/-! ## One pass -/

/-- What is derived from an occurrence is what its rules put for it, or else its letter. -/
theorem derive_eq (setting : Setting) (rules : List Rule) (occurrence : Occurrence) :
    setting.derive rules occurrence =
      (setting.replacement? (rulesFor rules occurrence.letter.symbol) occurrence).map
        (·.getD [occurrence.letter]) := by
  unfold derive replacement?
  cases setting.resolveFirst occurrence (rulesFor rules occurrence.letter.symbol) with
  | error error => rfl
  | ok resolution =>
      cases resolution with
      | noMatch => rfl
      | replace source =>
          show setting.normalize source = Except.map _ (setting.normalize source >>= _)
          cases setting.normalize source <;> rfl

/-- Going over one occurrence adds its image and, if it has one, its diagnostic. -/
theorem advance_eq (iteration : Nat) (sweep : Sweep) (occurrence : Occurrence) :
    setting.advance rules iteration sweep occurrence =
      ⟨sweep.letters ++ setting.image rules occurrence,
        sweep.diagnostics ++ (setting.diagnose? rules iteration occurrence).toList⟩ := by
  unfold advance image diagnose?
  rw [derive_eq]
  split
  · next hnone =>
    -- a symbol without rules is not looked at any further
    rw [hnone]
    simp [Sweep.keep, replacement?, resolveFirst, Except.map, bind, Except.bind, pure, Except.pure]
  · next hrules =>
    rw [hrules]
    split
    · next hsome => simp [hsome, Sweep.put, Except.map]
    · next hnone => simp [hnone, Sweep.keep, Except.map]
    · next herror => simp [herror, Sweep.keep, Sweep.note, Except.map]

theorem foldl_advance (iteration : Nat) (sweep : Sweep) (occurrences : List Occurrence) :
    occurrences.foldl (setting.advance rules iteration) sweep =
      ⟨sweep.letters ++ occurrences.flatMap (setting.image rules),
        sweep.diagnostics ++ occurrences.filterMap (setting.diagnose? rules iteration)⟩ := by
  induction occurrences generalizing sweep with
  | nil => simp
  | cons occurrence occurrences ih =>
      rw [List.foldl_cons, ih, advance_eq, List.flatMap_cons, List.filterMap_cons]
      cases setting.diagnose? rules iteration occurrence <;> simp [← Array.toList_inj]

/-- A sweep leaves the images of the occurrences behind. -/
theorem letters_sweep (setting : Setting) (rules : List Rule) (iteration : Nat) (word : Word) :
    (setting.sweep rules iteration word).letters.toList = setting.pass rules word := by
  rw [sweep, foldl_advance]
  simp [pass]

theorem diagnostics_sweep (setting : Setting) (rules : List Rule) (iteration : Nat) (word : Word) :
    (setting.sweep rules iteration word).diagnostics.toList =
      setting.passDiagnostics rules iteration word := by
  rw [sweep, foldl_advance]
  simp [passDiagnostics]

/-- A diagnostic belongs to the occurrence that it names. -/
theorem mem_passDiagnostics_iff {iteration : Nat} {word : Word} {diagnostic : Diagnostic} :
    diagnostic ∈ setting.passDiagnostics rules iteration word ↔
      diagnostic.iteration = iteration ∧ ∃ i : Fin word.length,
        diagnostic.index = i ∧ diagnostic.symbol = word[i].symbol ∧
          setting.derive rules (word.occurrence i) = .error diagnostic.error := by
  have hoccurrence (i : Fin word.length) :
      setting.diagnose? rules iteration (word.occurrence i) = some diagnostic ↔
        diagnostic.iteration = iteration ∧ diagnostic.index = i ∧
          diagnostic.symbol = word[i].symbol ∧
            setting.derive rules (word.occurrence i) = .error diagnostic.error := by
    obtain ⟨_, index, symbol, error⟩ := diagnostic
    unfold diagnose?
    cases setting.derive rules (word.occurrence i) with
    | ok _ => simp
    | error cause =>
        simp only [Option.some.injEq, Diagnostic.mk.injEq, Except.error.injEq]
        exact ⟨fun ⟨h₁, h₂, h₃, h₄⟩ => ⟨h₁.symm, h₂.symm, h₃.symm, h₄⟩,
          fun ⟨h₁, h₂, h₃, h₄⟩ => ⟨h₁.symm, h₂.symm, h₃.symm, h₄⟩⟩
  rw [passDiagnostics, List.mem_filterMap]
  constructor
  · rintro ⟨occurrence, hmem, hdiagnose⟩
    obtain ⟨i, rfl⟩ := Word.mem_occurrences_iff.1 hmem
    obtain ⟨hiteration, hrest⟩ := (hoccurrence i).1 hdiagnose
    exact ⟨hiteration, i, hrest⟩
  · rintro ⟨hiteration, i, hrest⟩
    exact ⟨_, Word.mem_occurrences_iff.2 ⟨i, rfl⟩, (hoccurrence i).2 ⟨hiteration, hrest⟩⟩

/-- The diagnostics of a pass stand in the order of their positions. -/
theorem pairwise_passDiagnostics (iteration : Nat) (word : Word) :
    (setting.passDiagnostics rules iteration word).Pairwise
      fun first second => first.index < second.index := by
  have hindex {occurrence : Occurrence} {diagnostic : Diagnostic}
      (h : setting.diagnose? rules iteration occurrence = some diagnostic) :
      diagnostic.index = occurrence.index := by
    unfold diagnose? at h
    split at h
    · cases h
    · cases h
      rfl
  refine List.pairwise_filterMap.2 (word.pairwise_occurrences.imp ?_)
  intro first second hlt d hd e he
  rwa [hindex hd, hindex he]

/-! ## A run of passes -/

theorem run_succ (setting : Setting) (rules : List Rule) (iteration count : Nat) (word : Word) :
    setting.run rules iteration (count + 1) word =
      let rest := setting.run rules (iteration + 1) count (setting.pass rules word)
      ⟨rest.word, setting.passDiagnostics rules iteration word ++ rest.diagnostics,
        setting.passDraws rules word ++ rest.draws⟩ := by
  rw [run, letters_sweep, diagnostics_sweep]

/-- A run of passes leaves the word that the passes leave one after the other. -/
theorem word_run (setting : Setting) (rules : List Rule) (iteration count : Nat) (word : Word) :
    (setting.run rules iteration count word).word = (setting.pass rules)^[count] word := by
  induction count generalizing iteration word with
  | zero => rfl
  | succ count ih =>
      rw [run_succ]
      exact ih (iteration + 1) (setting.pass rules word)

/-- A diagnostic of a run is one of the pass that it names. -/
theorem mem_diagnostics_run {iteration count : Nat} {word : Word} {diagnostic : Diagnostic} :
    diagnostic ∈ (setting.run rules iteration count word).diagnostics ↔
      ∃ k < count, diagnostic ∈
        setting.passDiagnostics rules (iteration + k) ((setting.pass rules)^[k] word) := by
  induction count generalizing iteration word with
  | zero => simp [run]
  | succ count ih =>
      rw [run_succ]
      dsimp only
      rw [List.mem_append, ih]
      constructor
      · rintro (hfirst | ⟨k, hk, hlater⟩)
        · exact ⟨0, Nat.succ_pos count, hfirst⟩
        · refine ⟨k + 1, Nat.succ_lt_succ hk, ?_⟩
          rwa [show iteration + (k + 1) = iteration + 1 + k by omega]
      · rintro ⟨k, hk, h⟩
        cases k with
        | zero => exact .inl h
        | succ k =>
            refine .inr ⟨k, Nat.lt_of_succ_lt_succ hk, ?_⟩
            rwa [show iteration + 1 + k = iteration + (k + 1) by omega]

/-- The diagnostics of a run stand in the order of their passes, and within a pass in the order of
their positions. -/
theorem pairwise_diagnostics_run (iteration count : Nat) (word : Word) :
    (setting.run rules iteration count word).diagnostics.Pairwise fun first second =>
      first.iteration < second.iteration ∨
        (first.iteration = second.iteration ∧ first.index < second.index) := by
  induction count generalizing iteration word with
  | zero => exact .nil
  | succ count ih =>
      rw [run_succ]
      refine List.pairwise_append.2 ⟨?_, ih (iteration + 1) _, ?_⟩
      · refine (pairwise_passDiagnostics iteration word).imp_of_mem ?_
        intro first second hfirst hsecond hlt
        have hequal := (mem_passDiagnostics_iff.1 hfirst).1.trans
          (mem_passDiagnostics_iff.1 hsecond).1.symm
        exact .inr ⟨hequal, hlt⟩
      · intro first hfirst second hsecond
        -- what follows comes from later passes
        obtain ⟨k, -, hsecond⟩ := mem_diagnostics_run.1 hsecond
        have hfirst := (mem_passDiagnostics_iff.1 hfirst).1
        have hsecond := (mem_passDiagnostics_iff.1 hsecond).1
        exact .inl (by omega)

end Setting

end GrowthGrammar
