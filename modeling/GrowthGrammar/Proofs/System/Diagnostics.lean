import GrowthGrammar.Proofs.Derivation.Errors
import GrowthGrammar.Proofs.System.Rewriting
import GrowthGrammar.Proofs.System.Soundness

/-!
# What a diagnostic can say

The rules of a system have all been checked when they were registered. If nothing is computed in them
and they are drawn from with the seeded sampler, rewriting finds only the faults that no registration
can find (`mayFail_after`): numbers of parameters that differ, and parameters without a value. The
phrases can be read, the symbols are known, and every draw picks an alternative, whatever has been
done with the system before.
-/

set_option autoImplicit false

namespace GrowthGrammar

variable {κ : Type}

/-- Whether an operation rewrites the word and lists what fails. -/
def Operation.Rewrites : Operation κ → Prop
  | .iterate => True
  | .iterateN _ => True
  | .applyProductions => True
  | _ => False

namespace System

/-- Every diagnostic that is listed is an occurrence that fails in the pass it names. -/
theorem failsAt_of_mem_diagnostics {system : System κ} {operation : Operation κ}
    (hrewrites : operation.Rewrites) {diagnostic : Diagnostic}
    (h : diagnostic ∈ (system.perform operation).diagnostics) :
    system.setting.FailsAt system.rules (system.iterateN diagnostic.iteration).word diagnostic := by
  cases operation with
  | iterate => exact (mem_diagnostics_iterate.1 h).2
  | iterateN count =>
      -- the number of passes makes no difference to what one of them finds
      have hlisted : diagnostic ∈ (system.setIterations count).iterate.diagnostics := h
      exact (mem_diagnostics_iterate.1 hlisted).2
  | applyProductions =>
      have hlisted : diagnostic ∈
          (system.setting.sweep system.rules 0 system.word).diagnostics.toList := h
      rw [Setting.diagnostics_sweep, Setting.mem_passDiagnostics_iff_failsAt] at hlisted
      rw [hlisted.1]
      exact hlisted.2
  | _ => cases hrewrites

/-- **Registration leaves two errors.** Take any history of a system after which it is drawn from
with the seeded sampler and none of its rules has a computation in it, or weights whose sum
overflows. Every diagnostic that rewriting then lists belongs to a letter of the word before its
pass, and a rule of that letter has failed there because the letter does not carry as many parameters
as the rule names, or because a parameter could not be evaluated. -/
theorem mayFail_after {origin : Origin κ} {built : System κ} (hbuilt : origin.build = .ok built)
    (operations : List (Operation κ)) {system : System κ} (hsystem : system = built.after operations)
    (hsampler : system.sampler = Sampler.seeded)
    (hforeseeable : ∀ rule ∈ system.rules, rule.successor.IsForeseeable)
    {operation : Operation κ} (hrewrites : operation.Rewrites) :
    ∀ diagnostic ∈ (system.perform operation).diagnostics,
      ∃ i : Fin (system.iterateN diagnostic.iteration).word.length,
        let occurrence := (system.iterateN diagnostic.iteration).word.occurrence i
        occurrence.index = diagnostic.index ∧ occurrence.letter.symbol = diagnostic.symbol ∧
          ∃ rule ∈ system.productionsFor diagnostic.symbol,
            system.setting.resolve rule occurrence = .error diagnostic.error ∧
              rule.MayFail system.defines occurrence.letter diagnostic.error := by
  intro diagnostic h
  have hsound : system.IsSound origin.alphabet origin.ignored := by
    rw [hsystem]
    exact after_induction (IsSound origin.alphabet origin.ignored) (fun _ => True)
      (fun _ operation _ hsound => isSound_perform hsound operation)
      (isSound_of_origin hbuilt) operations (fun _ _ => trivial)
  have hreliable : system.setting.sampler.IsReliable := by
    have hseeded : system.setting.sampler = Sampler.seeded := hsampler
    rw [hseeded]
    exact Sampler.isReliable_seeded
  have hmem : ∀ rule ∈ system.productionsFor diagnostic.symbol, rule ∈ system.rules :=
    fun _ hrule => List.mem_of_mem_filter hrule
  obtain ⟨i, hindex, hsymbol, hsettles⟩ := failsAt_of_mem_diagnostics hrewrites h
  obtain ⟨rule, hrule, hresolve, hmay⟩ := Setting.exists_mayFail_of_settles hreliable
    (fun rule hrule => hforeseeable rule (hmem rule hrule))
    (fun rule hrule => (hsound.rules rule (hmem rule hrule)).successor) hsettles
  exact ⟨i, hindex.symm, hsymbol.symm, rule, hrule, hresolve, hmay⟩

/-- A system with a rule that names two parameters, a choice between phrases that divide by zero and
phrases with an unknown name, and at first a sampler that never picks an alternative. -/
def faltering : Options Unit where
  alphabet := ["F", "X"]
  ignored := some ["[", "]"]
  word := some (.phrase "X(1) F [X(1, 2)]")
  productions :=
    [("X(p, q)", ⟨.phrase "F(p / q) F", none, none, []⟩),
      ("F", ⟨.stochastic [(.phrase "F(1 / 0)", 1), (.stochastic [(.phrase "F(p)", 3)], 0.5)],
        none, none, []⟩)]
  sampler := some fun _ weights => .ok weights.length

theorem isForeseeable_faltering :
    ∀ production ∈ faltering.productions, production.2.successor.IsForeseeable := by
  intro production hproduction
  rcases List.mem_cons.1 hproduction with rfl | hproduction
  · exact .phrase _
  · obtain rfl := List.mem_singleton.1 hproduction
    refine .stochastic (by decide +kernel) fun alternative halternative => ?_
    rcases List.mem_cons.1 halternative with rfl | halternative
    · exact .phrase _
    · obtain rfl := List.mem_singleton.1 halternative
      refine .stochastic (by decide +kernel) fun inner hinner => ?_
      obtain rfl := List.mem_singleton.1 hinner
      exact .phrase _

/-- The faltering system, rewritten once with either sampler. The second time four letters fail. -/
theorem mayFail_after_faltering :
    ∃ built system : System Unit, (Origin.options faltering).build = .ok built ∧
      system = built.after [.iterate, .setSampler Sampler.seeded] ∧
      (system.perform .iterate).diagnostics.length = 4 ∧
      ∀ diagnostic ∈ (system.perform .iterate).diagnostics,
        ∃ i : Fin (system.iterateN diagnostic.iteration).word.length,
          let occurrence := (system.iterateN diagnostic.iteration).word.occurrence i
          occurrence.index = diagnostic.index ∧ occurrence.letter.symbol = diagnostic.symbol ∧
            ∃ rule ∈ system.productionsFor diagnostic.symbol,
              system.setting.resolve rule occurrence = .error diagnostic.error ∧
                rule.MayFail system.defines occurrence.letter diagnostic.error := by
  have hlength : (Origin.options faltering).build.toOption.map (fun built =>
      ((built.after [.iterate, .setSampler Sampler.seeded]).perform .iterate).diagnostics.length) =
      some 4 := by
    decide +kernel
  obtain ⟨built, h⟩ := Outcome.exists_of_isSome
    (show (Origin.options faltering).build.toOption.isSome = true by decide +kernel)
  rw [h] at hlength
  refine ⟨built, _, h, rfl, Option.some.inj hlength, ?_⟩
  refine mayFail_after h _ rfl rfl ?_ trivial
  -- the rules are those that were built
  intro rule hrule
  have hyields := Options.yields_of_build (Outcome.mapError_eq_ok_iff.1 h)
  obtain ⟨production, hproduction, hregister⟩ := hyields.rules rule hrule
  rw [successor_of_register hregister]
  exact isForeseeable_faltering production hproduction

end System

end GrowthGrammar
