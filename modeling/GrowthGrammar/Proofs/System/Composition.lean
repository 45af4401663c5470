import GrowthGrammar.Proofs.System.Rewriting

/-!
# Passes compose

No pass depends on its number: a run that starts later lists the same diagnostics under later
numbers (`diagnostics_run_delay`), and a run of `a + b` passes is a run of `a` passes with one of `b`
passes behind it (`run_add`). So it makes no difference in how many calls a system is rewritten, and
`applyProductions` is one pass that is not kept (`iterateN_composes`).
-/

set_option autoImplicit false

namespace GrowthGrammar

/-- The diagnostic as a run lists it that begins `count` passes earlier. -/
def Diagnostic.delay (count : Nat) (diagnostic : Diagnostic) : Diagnostic :=
  { diagnostic with iteration := diagnostic.iteration + count }

namespace Setting

variable {setting : Setting} {rules : List Rule}

/-! ## Runs -/

/-- What a pass finds does not depend on its number. -/
theorem diagnose?_delay (iteration count : Nat) (occurrence : Occurrence) :
    setting.diagnose? rules (iteration + count) occurrence =
      (setting.diagnose? rules iteration occurrence).map (Diagnostic.delay count) := by
  unfold diagnose?
  cases setting.derive rules occurrence <;> rfl

theorem passDiagnostics_delay (iteration count : Nat) (word : Word) :
    setting.passDiagnostics rules (iteration + count) word =
      (setting.passDiagnostics rules iteration word).map (Diagnostic.delay count) := by
  unfold passDiagnostics
  rw [List.map_filterMap]
  congr 1
  funext occurrence
  exact diagnose?_delay iteration count occurrence

/-- A run that begins later finds the same in its passes. -/
theorem diagnostics_run_delay (iteration delay count : Nat) (word : Word) :
    (setting.run rules (iteration + delay) count word).diagnostics =
      (setting.run rules iteration count word).diagnostics.map (Diagnostic.delay delay) := by
  induction count generalizing iteration word with
  | zero => rfl
  | succ count ih =>
      have hlater := ih (iteration + 1) (setting.pass rules word)
      rw [Nat.add_right_comm] at hlater
      rw [run_succ, run_succ]
      dsimp only
      rw [passDiagnostics_delay, hlater, List.map_append]

/-- A run of `first + second` passes is two runs, of which the second takes up the word and the
number of passes that the first has left. -/
theorem run_add (setting : Setting) (rules : List Rule) (iteration first second : Nat)
    (word : Word) :
    setting.run rules iteration (first + second) word =
      let front := setting.run rules iteration first word
      let rest := setting.run rules (iteration + first) second front.word
      ⟨rest.word, front.diagnostics ++ rest.diagnostics, front.draws ++ rest.draws⟩ := by
  induction first generalizing iteration word with
  | zero => simp [run]
  | succ first ih =>
      rw [Nat.succ_add_eq_add_succ, Nat.add_succ, run_succ, ih, run_succ]
      simp only [List.append_assoc, Nat.add_assoc, Nat.add_comm 1 first]

end Setting

/-! ## Systems -/

namespace System

variable {κ : Type}

/-- **Passes compose.** Rewriting with `a` passes and then with `b` leaves the word that `a + b` passes
leave, and the diagnostics of the `a + b` passes are those of the two calls one behind the other,
the later ones with `a` added to the number of their pass. `applyProductions` finds the word and the
diagnostics of one pass. Of a system, `iterate` changes its word and its diagnostics, `iterateN` also
the number of its passes, and `applyProductions` nothing but the diagnostics. -/
theorem iterateN_composes (system : System κ) :
    (∀ a b, ((system.iterateN a).iterateN b).word = (system.iterateN (a + b)).word ∧
      (system.iterateN (a + b)).diagnostics = (system.iterateN a).diagnostics ++
        ((system.iterateN a).iterateN b).diagnostics.map (Diagnostic.delay a)) ∧
    system.applied = (system.iterateN 1).word ∧
    system.applyProductions.diagnostics = (system.iterateN 1).diagnostics ∧
    system.iterate =
      { system with word := system.iterate.word, diagnostics := system.iterate.diagnostics } ∧
    (∀ count, system.iterateN count =
      { system with
        word := (system.iterateN count).word
        iterations := count
        diagnostics := (system.iterateN count).diagnostics }) ∧
    system.applyProductions =
      { system with diagnostics := system.applyProductions.diagnostics } := by
  refine ⟨fun a b => ?_, rfl, ?_, rfl, fun _ => rfl, rfl⟩
  · -- the second call rewrites with the setting and the rules of the first
    have hadd := system.setting.run_add system.rules 0 a b system.word
    have hword : ((system.iterateN a).iterateN b).word =
        (system.setting.run system.rules 0 b (system.iterateN a).word).word := rfl
    refine ⟨?_, ?_⟩
    · rw [hword, Setting.word_run, ← system.setting.word_run system.rules (0 + a)]
      exact (congrArg Run.word hadd).symm
    · have hlater : ((system.iterateN a).iterateN b).diagnostics.map (Diagnostic.delay a) =
          (system.setting.run system.rules (0 + a) b (system.iterateN a).word).diagnostics :=
        (Setting.diagnostics_run_delay 0 a b (system.iterateN a).word).symm
      rw [hlater]
      exact congrArg Run.diagnostics hadd
  · have hone : (system.iterateN 1).diagnostics =
        (system.setting.run system.rules 0 1 system.word).diagnostics := rfl
    rw [hone, Setting.run_succ, ← Setting.diagnostics_sweep]
    exact (List.append_nil _).symm

end System

end GrowthGrammar
