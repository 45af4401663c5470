import GrowthGrammar.Proofs.Derivation.Settling
import GrowthGrammar.System

/-!
# Rewriting is pointwise

The result of a pass over the word of a system is made of what the rules settle for its letters,
position by position, and an occurrence that fails is kept like one that every rule declines. The
diagnostics of a run are the failures of its passes and nothing else (`iterate_pointwise`).
-/

set_option autoImplicit false

namespace GrowthGrammar.System

variable {κ : Type}

theorem applied_eq (system : System κ) :
    system.applied = system.setting.pass system.rules system.word :=
  Setting.letters_sweep system.setting system.rules 0 system.word

theorem word_iterateN (system : System κ) (count : Nat) :
    (system.iterateN count).word = (system.setting.pass system.rules)^[count] system.word :=
  Setting.word_run system.setting system.rules 0 count system.word

/-- One pass more puts together what stands for the letters that the passes before have left. -/
theorem word_iterateN_succ (system : System κ) (count : Nat) :
    (system.iterateN (count + 1)).word =
      (system.iterateN count).word.occurrences.flatMap (system.setting.image system.rules) := by
  rw [word_iterateN, Function.iterate_succ_apply', ← word_iterateN, Setting.pass]

/-- The diagnostics of `iterate` are the occurrences that fail in one of its passes. -/
theorem mem_diagnostics_iterate {system : System κ} {diagnostic : Diagnostic} :
    diagnostic ∈ system.iterate.diagnostics ↔
      diagnostic.iteration < system.iterations ∧
        system.setting.FailsAt system.rules (system.iterateN diagnostic.iteration).word
          diagnostic := by
  rw [word_iterateN]
  refine Setting.mem_diagnostics_run.trans ?_
  simp only [Setting.mem_passDiagnostics_iff_failsAt, Nat.zero_add]
  constructor
  · rintro ⟨k, hk, rfl, hfails⟩
    exact ⟨hk, hfails⟩
  · rintro ⟨hk, hfails⟩
    exact ⟨_, hk, rfl, hfails⟩

/-- **Rewriting is pointwise.** The result of one pass is the concatenation of what stands for the
letters of the word, each settled by the word before the pass and the position alone: the normalised
replacement, or the letter itself if there is none or it fails. `iterate` passes as often as it
is set to. Its diagnostics are the occurrences that fail, each with the word before its pass, in the
order of the passes and of the positions, so that none is listed twice, and whatever was listed
before is gone. -/
theorem iterate_pointwise (system : System κ) :
    (∃ outcome : Fin system.word.length → Except DerivationError (Option Word),
      (∀ i settled, system.setting.Settles (system.word.occurrence i)
        (system.productionsFor system.word[i].symbol) settled ↔ outcome i = settled) ∧
      system.applied = (List.ofFn fun i => system.word[i].replacedBy (outcome i)).flatten) ∧
    (system.iterateN 0).word = system.word ∧
    (∀ k, (system.iterateN (k + 1)).word = (system.iterateN k).applied) ∧
    system.iterate.word = (system.iterateN system.iterations).word ∧
    (∀ diagnostic : Diagnostic, diagnostic ∈ system.iterate.diagnostics ↔
      diagnostic.iteration < system.iterations ∧
        system.setting.FailsAt system.rules (system.iterateN diagnostic.iteration).word
          diagnostic) ∧
    system.iterate.diagnostics.Pairwise fun first second =>
      first.iteration < second.iteration ∨
        (first.iteration = second.iteration ∧ first.index < second.index) := by
  refine ⟨?_, rfl, ?_, rfl, ?_, Setting.pairwise_diagnostics_run 0 _ _⟩
  · refine ⟨fun i => _, fun i settled => Setting.settles_iff, ?_⟩
    rw [applied_eq, Setting.pass, Word.occurrences_eq_ofFn, List.flatMap_def, List.map_ofFn]
    congr 2
    funext i
    exact Setting.image_eq _ _ _
  · intro k
    -- the passes do not change what the next one is made with
    have hsetting : (system.iterateN k).setting = system.setting := rfl
    have hrules : (system.iterateN k).rules = system.rules := rfl
    rw [applied_eq, hsetting, hrules, word_iterateN, word_iterateN, Function.iterate_succ_apply']
  · exact fun _ => mem_diagnostics_iterate

end GrowthGrammar.System
