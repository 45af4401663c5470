import GrowthGrammar.Format
import GrowthGrammar.Proofs.Derivation.Leaves
import GrowthGrammar.Proofs.Phrase.Printing
import GrowthGrammar.Proofs.Production.Validity
import GrowthGrammar.Proofs.System.History

/-!
# Textual systems can be read again

A system is textual if its words come from phrases and its productions are phrases or sets of such
alternatives, nested to any depth; every described system is. Whatever is done with a textual
system, its word stays readable: every letter comes from a phrase, or was there before. So the
parametric format of the word is tokenised to the word again (`tokenize_parametric_after`).
-/

set_option autoImplicit false

namespace GrowthGrammar

variable {κ : Type}

/-! ## Textual sources -/

/-- A source that is a phrase. -/
def Source.IsPhrase : Source → Prop
  | .phrase _ => True
  | .word _ => False
  | .letter _ => False

/-- A successor with nothing but phrases in it, at any depth of alternatives. -/
inductive Successor.IsTextual : Successor → Prop where
  | phrase (text : String) : IsTextual (.phrase text)
  | stochastic {alternatives : List (Successor × Float)}
      (textual : ∀ alternative ∈ alternatives, IsTextual alternative.1) :
      IsTextual (.stochastic alternatives)

/-- Options that give the first word and all successors as phrases. -/
structure Options.IsTextual (options : Options κ) : Prop where
  word : ∀ source ∈ options.word, source.IsPhrase
  productions : ∀ production ∈ options.productions, production.2.successor.IsTextual

/-- A definition has nothing but phrases to describe a system with. -/
def Origin.IsTextual : Origin κ → Prop
  | .options o => o.IsTextual
  | .definition _ => True

/-- An operation that brings in words and productions as phrases only. -/
structure Operation.IsTextual (operation : Operation κ) : Prop where
  source : ∀ source ∈ operation.source?, source.IsPhrase
  productions : ∀ production ∈ operation.productions, production.2.successor.IsTextual

theorem isTextual_of_none {operation : Operation κ} (hsource : operation.source? = none)
    (hproductions : operation.productions = []) : operation.IsTextual := by
  refine ⟨?_, ?_⟩
  · rw [hsource]
    intro source h
    cases h
  · rw [hproductions]
    intro production h
    cases h

/-! ## Passes -/

section Passes

/-- A textual successor leads to a phrase. -/
theorem Successor.IsTextual.exists_phrase {successor : Successor} (htextual : successor.IsTextual)
    {leaf : Leaf} (h : successor.Reaches leaf) : ∃ text, leaf = .phrase text := by
  induction h with
  | phrase text => exact ⟨text, rfl⟩
  | word letters => cases htextual
  | computed result => cases htextual
  | alternative mem reaches ih =>
      cases htextual with
      | stochastic textual => exact ih (textual _ mem)

variable {setting : Setting} {occurrence : Occurrence}

/-- What a textual rule puts for an occurrence is a readable word. -/
theorem isReadable_of_resolve {rule : Rule} (htextual : rule.successor.IsTextual)
    {source : Source} (h : setting.resolve rule occurrence = .ok (.replace source)) :
    ∃ word : Word, source = .word word ∧
      ∀ letter ∈ word, letter.IsReadable setting.vocabulary := by
  -- whatever was drawn is a phrase, and a phrase is tokenised when it is put in
  obtain ⟨leaf, hreaches, hleaf⟩ := Setting.exists_leaf_of_resolve h
  obtain ⟨text, rfl⟩ := htextual.exists_phrase hreaches
  obtain ⟨scope, -, hleaf⟩ := Outcome.bind_eq_ok_iff.1 hleaf
  obtain ⟨word, hword, hleaf⟩ := Outcome.bind_eq_ok_iff.1 hleaf
  cases hleaf
  exact ⟨word, rfl, isReadable_of_tokenize (Outcome.mapError_eq_ok_iff.1 hword)⟩

theorem isReadable_of_resolveFirst {rules : List Rule}
    (htextual : ∀ rule ∈ rules, rule.successor.IsTextual) {source : Source}
    (h : setting.resolveFirst occurrence rules = .ok (.replace source)) :
    ∃ word : Word, source = .word word ∧
      ∀ letter ∈ word, letter.IsReadable setting.vocabulary := by
  induction rules with
  | nil => cases h
  | cons rule rules ih =>
      rw [Setting.resolveFirst] at h
      split at h
      · exact ih (fun r hr => htextual r (List.mem_cons_of_mem _ hr)) h
      · exact isReadable_of_resolve (htextual rule List.mem_cons_self) h

/-- The image of a readable letter is readable: it is a word put for it, or the letter itself. -/
theorem isReadable_image {rules : List Rule}
    (htextual : ∀ rule ∈ rules, rule.successor.IsTextual)
    (hletter : occurrence.letter.IsReadable setting.vocabulary) :
    ∀ letter ∈ setting.image rules occurrence, letter.IsReadable setting.vocabulary := by
  have hkept : ∀ letter ∈ [occurrence.letter], letter.IsReadable setting.vocabulary := by
    intro letter hmem
    rwa [List.mem_singleton.1 hmem]
  unfold Setting.image
  split
  · next word hword =>
    unfold Setting.derive at hword
    split at hword
    · cases hword
    · cases hword
      exact hkept
    · next source hsource =>
      have hof : ∀ rule ∈ rulesFor rules occurrence.letter.symbol, rule.successor.IsTextual :=
        fun rule hrule => htextual rule (List.mem_of_mem_filter hrule)
      -- the word put in has been tokenised, and normalising leaves it as it is
      obtain ⟨put, rfl, hput⟩ := isReadable_of_resolveFirst hof hsource
      obtain ⟨_, -, hchecked⟩ :=
        Outcome.bind_eq_ok_iff.1 (Outcome.mapError_eq_ok_iff.1 hword)
      cases hchecked
      exact hput
  · exact hkept

theorem isReadable_pass {rules : List Rule} (htextual : ∀ rule ∈ rules, rule.successor.IsTextual)
    {word : Word} (hword : ∀ letter ∈ word, letter.IsReadable setting.vocabulary) :
    ∀ letter ∈ setting.pass rules word, letter.IsReadable setting.vocabulary := by
  intro letter hletter
  obtain ⟨occurrence, hoccurrence, hletter⟩ := List.mem_flatMap.1 hletter
  -- an occurrence is a letter of the word before the pass
  obtain ⟨⟨old, index⟩, hold, rfl⟩ := List.mem_map.1 hoccurrence
  exact isReadable_image htextual (hword old (List.fst_mem_of_mem_zipIdx hold)) letter hletter

theorem isReadable_run {rules : List Rule} (htextual : ∀ rule ∈ rules, rule.successor.IsTextual)
    (iteration count : Nat) {word : Word}
    (hword : ∀ letter ∈ word, letter.IsReadable setting.vocabulary) :
    ∀ letter ∈ (setting.run rules iteration count word).word,
      letter.IsReadable setting.vocabulary := by
  induction count generalizing iteration word with
  | zero => exact hword
  | succ count ih =>
      rw [Setting.run_succ]
      exact ih (iteration + 1) (isReadable_pass htextual hword)

end Passes

/-! ## Systems -/

namespace System

/-- What a textual system keeps to. -/
structure IsTextual (system : System κ) : Prop where
  word : ∀ letter ∈ system.word, letter.IsReadable system.vocabulary
  rules : ∀ rule ∈ system.rules, rule.successor.IsTextual

theorem isReadable_of_normalize {vocabulary : Vocabulary} {lookup : String → Option Float}
    {source : Source} (hsource : source.IsPhrase) {word : Word}
    (h : source.normalize vocabulary lookup = .ok word) :
    ∀ letter ∈ word, letter.IsReadable vocabulary := by
  cases source with
  | phrase text => exact isReadable_of_tokenize h
  | word letters => cases hsource
  | letter l => cases hsource

/-- One textual operation keeps a system textual, whether it succeeds or fails. -/
theorem isTextual_perform {system : System κ} (h : system.IsTextual) {operation : Operation κ}
    (hoperation : operation.IsTextual) : (system.perform operation).IsTextual := by
  obtain ⟨hvocabulary, hword, -, hrules⟩ := transition_perform system operation
  refine ⟨?_, ?_⟩
  · rw [hvocabulary]
    rcases hword with hword | ⟨source, hsource, hword⟩ | ⟨count, hword⟩
    · rw [hword]
      exact h.word
    · exact isReadable_of_normalize (hoperation.source source hsource) hword
    · rw [hword]
      exact isReadable_run h.rules 0 count h.word
  · intro rule hrule
    rcases hrules rule hrule with hold | ⟨entry, hentry, hregister⟩
    · exact h.rules rule hold
    · rw [successor_of_register hregister]
      exact hoperation.productions entry hentry

theorem isTextual_of_build {options : Options κ} {built : System κ} (h : options.build = .ok built)
    (hoptions : options.IsTextual) : built.IsTextual := by
  obtain ⟨-, -, -, -, hword, hrules⟩ := Options.yields_of_build h
  refine ⟨?_, ?_⟩
  · rcases hword with hempty | ⟨source, hsource, hword⟩
    · rw [hempty]
      intro letter hletter
      cases hletter
    · exact isReadable_of_normalize (hoptions.word source hsource) hword
  · intro rule hrule
    obtain ⟨entry, hentry, hregister⟩ := hrules rule hrule
    rw [successor_of_register hregister]
    exact hoptions.productions entry hentry

/-- The options that a definition stands for are textual. -/
theorem isTextual_of_definition {definition : Definition} {options : Options κ}
    (h : definition.options = .ok options) : options.IsTextual := by
  obtain ⟨iterations, -, h⟩ := Outcome.bind_eq_ok_iff.1 h
  obtain ⟨productions, hproductions, h⟩ := Outcome.bind_eq_ok_iff.1 h
  cases h
  refine ⟨?_, ?_⟩
  · rintro source ⟨⟩
    trivial
  · intro production hproduction
    obtain ⟨spec, -, hspec⟩ := Outcome.exists_of_mem_mapM hproductions hproduction
    obtain ⟨described, hdescribed, heq⟩ := Outcome.bind_eq_ok_iff.1 hspec
    cases heq
    obtain ⟨successor, hsuccessor, heq⟩ := Outcome.bind_eq_ok_iff.1 hdescribed
    cases heq
    unfold ProductionSpec.resolveSuccessor at hsuccessor
    split at hsuccessor
    · cases hsuccessor
      exact .phrase _
    · cases hsuccessor
      refine .stochastic fun alternative halternative => ?_
      obtain ⟨item, -, rfl⟩ := List.mem_map.1 halternative
      exact .phrase _
    · cases hsuccessor

theorem isTextual_of_origin {origin : Origin κ} {built : System κ} (h : origin.build = .ok built)
    (horigin : origin.IsTextual) : built.IsTextual := by
  cases origin with
  | options o => exact isTextual_of_build (Outcome.mapError_eq_ok_iff.1 h) horigin
  | definition d =>
      obtain ⟨options, hoptions, hbuild⟩ := Outcome.bind_eq_ok_iff.1 h
      exact isTextual_of_build (Outcome.mapError_eq_ok_iff.1 hbuild)
        (isTextual_of_definition hoptions)

/-! ## The parametric format -/

/-- The parametric format is phrase syntax. -/
theorem serialize_parametric (system : System κ) :
    system.serialize "parametric" = .ok system.word.text := by
  have hformat : Registry.builtin.get? "parametric" = some Format.parametric := rfl
  unfold serialize Registry.write
  rw [hformat]
  rfl

/-- **The parametric format can be read again.** After any textual history of a textual system,
every parameter of the word is finite, and the word in the parametric format is tokenised to itself,
whatever defines it is read with. -/
theorem tokenize_parametric_after {origin : Origin κ} {built : System κ}
    (hbuilt : origin.build = .ok built) (horigin : origin.IsTextual)
    (operations : List (Operation κ))
    (hoperations : ∀ operation ∈ operations, operation.IsTextual) :
    (∀ letter ∈ (built.after operations).word, ∀ param ∈ letter.params, param.isFinite = true) ∧
    ∃ text, (built.after operations).serialize "parametric" = .ok text ∧
      ∀ defines : Defines,
        Phrase.tokenize (built.after operations).vocabulary (Scope.ofDefines defines).lookup text =
          .ok (built.after operations).word := by
  have htextual : (built.after operations).IsTextual :=
    after_induction IsTextual Operation.IsTextual
      (fun _ _ hoperation hsystem => isTextual_perform hsystem hoperation)
      (isTextual_of_origin hbuilt horigin) operations hoperations
  refine ⟨fun letter hletter => (htextual.word letter hletter).finite, ?_⟩
  exact ⟨_, serialize_parametric _, fun defines => tokenize_text htextual.word⟩

/-- A system of phrases with a choice inside a choice and parameters of either sign. -/
def swaying : Options Unit where
  alphabet := ["F", "X"]
  ignored := some ["[", "]"]
  word := some (.phrase "F(-0) [X(a / 3)]")
  defines := [("a", 2)]
  productions :=
    [("X(p)", ⟨.stochastic
      [(.phrase "F(-p)[X(p / a)]", 1), (.stochastic [(.phrase "F X(1 - p)", 3)], 0.5)],
      none, none, []⟩)]

theorem isTextual_swaying : swaying.IsTextual := by
  refine ⟨?_, ?_⟩
  · rintro source ⟨⟩
    trivial
  · intro production hproduction
    obtain rfl := List.mem_singleton.1 hproduction
    refine .stochastic fun alternative halternative => ?_
    rcases List.mem_cons.1 halternative with rfl | halternative
    · exact .phrase _
    · obtain rfl := List.mem_singleton.1 halternative
      refine .stochastic fun inner hinner => ?_
      obtain rfl := List.mem_singleton.1 hinner
      exact .phrase _

/-- The swaying system, grown with changing defines and one more production. -/
theorem tokenize_parametric_after_swaying :
    ∃ built : System Unit, (Origin.options swaying).build = .ok built ∧
      ∃ grown : System Unit,
        grown = built.after [.setDefine "a" 3, .iterateN 3, .clearDefines,
          .setProduction "F" ⟨.phrase "F X(-1 / 7)", none, none, []⟩, .iterate] ∧
        (∀ letter ∈ grown.word, ∀ param ∈ letter.params, param.isFinite = true) ∧
        ∃ text, grown.serialize "parametric" = .ok text ∧
          ∀ defines : Defines,
            Phrase.tokenize grown.vocabulary (Scope.ofDefines defines).lookup text =
              .ok grown.word := by
  obtain ⟨built, h⟩ := Outcome.exists_of_isSome
    (show (Origin.options swaying).build.toOption.isSome = true by decide +kernel)
  refine ⟨built, h, _, rfl, tokenize_parametric_after h isTextual_swaying _ ?_⟩
  intro operation hoperation
  -- one of the five sets a production, the others bring in nothing
  simp only [List.mem_cons, List.not_mem_nil, or_false] at hoperation
  rcases hoperation with rfl | rfl | rfl | rfl | rfl
  · exact isTextual_of_none rfl rfl
  · exact isTextual_of_none rfl rfl
  · exact isTextual_of_none rfl rfl
  · refine ⟨fun source hsource => (nomatch hsource), fun production hproduction => ?_⟩
    obtain rfl := List.mem_singleton.1 hproduction
    exact .phrase _
  · exact isTextual_of_none rfl rfl

end System

end GrowthGrammar
