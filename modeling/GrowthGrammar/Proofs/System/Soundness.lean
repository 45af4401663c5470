import GrowthGrammar.Proofs.Derivation.Sweep
import GrowthGrammar.Proofs.Production.Validity
import GrowthGrammar.Proofs.System.History
import GrowthGrammar.Proofs.Table

/-!
# Systems stay sound

Whatever is stored in a system has been checked against its vocabulary: the word, the rules and the
names of the defines (`System.IsSound`). Building establishes this, every operation keeps it, and so
it holds after every history (`isSound_after`). No operation has to trust a callback or a sampler,
because what they return is normalised before it is spliced into the word.
-/

set_option autoImplicit false

namespace GrowthGrammar

variable {κ : Type}

/-! ## Passes -/

theorem mem_of_mem_occurrences {word : Word} {occurrence : Occurrence}
    (h : occurrence ∈ word.occurrences) : occurrence.letter ∈ word := by
  obtain ⟨⟨letter, index⟩, hmem, rfl⟩ := List.mem_map.1 h
  exact List.fst_mem_of_mem_zipIdx hmem

/-- The image of an occurrence is known: it has been normalised, or it is the occurrence. -/
theorem covers_image (setting : Setting) (rules : List Rule) {occurrence : Occurrence}
    (h : setting.vocabulary.knows occurrence.letter.symbol = true) :
    setting.vocabulary.Covers ((setting.image rules occurrence).map Letter.symbol) := by
  have hkept : setting.vocabulary.Covers ([occurrence.letter].map Letter.symbol) := by
    intro symbol hsymbol
    rwa [List.mem_singleton.1 hsymbol]
  unfold Setting.image
  split
  · next word hword =>
    unfold Setting.derive at hword
    split at hword
    · cases hword
    · cases hword
      exact hkept
    · exact covers_of_normalize (Outcome.mapError_eq_ok_iff.1 hword)
  · exact hkept

theorem covers_pass (setting : Setting) (rules : List Rule) {word : Word}
    (h : setting.vocabulary.Covers (word.map Letter.symbol)) :
    setting.vocabulary.Covers ((setting.pass rules word).map Letter.symbol) := by
  intro symbol hsymbol
  obtain ⟨letter, hletter, rfl⟩ := List.mem_map.1 hsymbol
  obtain ⟨occurrence, hoccurrence, hletter⟩ := List.mem_flatMap.1 hletter
  have hknown := h _ (List.mem_map_of_mem (mem_of_mem_occurrences hoccurrence))
  exact covers_image setting rules hknown _ (List.mem_map_of_mem hletter)

theorem covers_run (setting : Setting) (rules : List Rule) (iteration count : Nat) {word : Word}
    (h : setting.vocabulary.Covers (word.map Letter.symbol)) :
    setting.vocabulary.Covers
      ((setting.run rules iteration count word).word.map Letter.symbol) := by
  induction count generalizing iteration word with
  | zero => exact h
  | succ count ih =>
      rw [Setting.run_succ]
      exact ih (iteration + 1) (covers_pass setting rules h)

/-! ## Defines -/

/-- A table of defines that every expression can refer to. -/
def Defines.IsNamed (defines : Defines) : Prop :=
  ∀ define ∈ defines.entries, isIdentifier define.1 = true

theorem isNamed_empty : Defines.IsNamed Table.empty := by
  intro entry hentry
  cases hentry

theorem isNamed_of_define {defines next : Defines} {name : String} {value : Float}
    (h : defines.define name value = .ok next) (hnamed : defines.IsNamed) : next.IsNamed := by
  unfold Defines.define at h
  split at h
  · next hname =>
    cases h
    intro entry hentry
    rcases Table.mem_of_mem_insertEntry hentry with rfl | hentry
    · exact hname
    · exact hnamed entry hentry
  · cases h

theorem isNamed_of_ofPairs {pairs : List (String × Float)} {defines : Defines}
    (h : Defines.ofPairs pairs = .ok defines) : defines.IsNamed :=
  Outcome.foldlM_induction (fun _ _ _ hdefine hnamed => isNamed_of_define hdefine hnamed)
    isNamed_empty h

/-! ## Systems -/

namespace System

/-- What a system keeps to, whatever is done with it. Its two alphabets are the given ones and have
no symbol in common. -/
structure IsSound (alphabet ignored : List String) (system : System κ) : Prop where
  active_eq : system.vocabulary.active.symbols = alphabet
  ignored_eq : system.vocabulary.ignored.symbols = ignored
  disjoint : ∀ symbol ∈ alphabet, symbol ∉ ignored
  word : system.vocabulary.Covers (system.word.map Letter.symbol)
  rules : ∀ rule ∈ system.rules, rule.IsValid system.vocabulary
  defines : system.defines.IsNamed

/-- One operation keeps a system sound, whether it succeeds or fails. -/
theorem isSound_perform {alphabet ignored : List String} {system : System κ}
    (h : system.IsSound alphabet ignored) (operation : Operation κ) :
    (system.perform operation).IsSound alphabet ignored := by
  obtain ⟨hvocabulary, hword, hdefines, hrules⟩ := transition_perform system operation
  refine ⟨?_, ?_, h.disjoint, ?_, ?_, ?_⟩
  · rw [hvocabulary]
    exact h.active_eq
  · rw [hvocabulary]
    exact h.ignored_eq
  · rw [hvocabulary]
    rcases hword with hword | ⟨source, -, hword⟩ | ⟨count, hword⟩
    · rw [hword]
      exact h.word
    · exact covers_of_normalize hword
    · rw [hword]
      exact covers_run system.setting system.rules 0 count h.word
  · intro rule hrule
    rw [hvocabulary]
    rcases hrules rule hrule with hold | ⟨entry, -, hregister⟩
    · exact h.rules rule hold
    · exact isValid_of_register hregister
  · rcases hdefines with hdefines | hdefines | ⟨name, value, hdefine⟩ | ⟨pairs, hpairs⟩
    · rw [hdefines]
      exact h.defines
    · rw [hdefines]
      exact isNamed_empty
    · exact isNamed_of_define hdefine h.defines
    · exact isNamed_of_ofPairs hpairs

/-- So does a history. -/
theorem IsSound.after {alphabet ignored : List String} {system : System κ}
    (h : system.IsSound alphabet ignored) (operations : List (Operation κ)) :
    (system.after operations).IsSound alphabet ignored :=
  after_induction (IsSound alphabet ignored) (fun _ => True)
    (fun _ operation _ hsound => isSound_perform hsound operation) h operations
    (fun _ _ => trivial)

/-- The symbol of a rule is no ignored one. -/
theorem IsSound.not_mem_ignored {alphabet ignored : List String} {system : System κ}
    (h : system.IsSound alphabet ignored) {rule : Rule} (hrule : rule ∈ system.rules) :
    rule.symbol ∉ system.vocabulary.ignored := by
  have hactive : rule.symbol ∈ system.vocabulary.active.symbols := (h.rules rule hrule).active
  intro hignored
  have hignored : rule.symbol ∈ system.vocabulary.ignored.symbols := hignored
  rw [h.active_eq] at hactive
  rw [h.ignored_eq] at hignored
  exact h.disjoint rule.symbol hactive hignored

/-- Each alphabet lists the symbols that are asked for. -/
theorem symbols_of_activeOfList {symbols : List String} {alphabet : Alphabet .active}
    (h : Alphabet.activeOfList symbols = .ok alphabet) : alphabet.symbols = symbols := by
  obtain ⟨listed, hlisted, h⟩ := Outcome.bind_eq_ok_iff.1 h
  split at h
  · cases h
  · cases h
    exact Alphabet.symbols_of_ofList hlisted

theorem symbols_of_ignoredAlphabet {options : Options κ} {alphabet : Alphabet .ignored}
    (h : options.ignoredAlphabet = .ok alphabet) :
    alphabet.symbols = options.ignored.getD drawingMarks.symbols := by
  unfold Options.ignoredAlphabet at h
  split at h
  · next symbols hsome =>
    rw [hsome]
    exact Alphabet.symbols_of_ofList h
  · next hnone =>
    cases h
    rw [hnone]
    rfl

/-- What is built is sound: every part of it has been checked. -/
theorem isSound_of_build {options : Options κ} {built : System κ}
    (h : options.build = .ok built) :
    built.IsSound options.alphabet (options.ignored.getD drawingMarks.symbols) := by
  obtain ⟨hactive, hignored, hdisjoint, hdefines, hword, hrules⟩ := Options.yields_of_build h
  have hactive' := symbols_of_activeOfList hactive
  have hignored' := symbols_of_ignoredAlphabet hignored
  refine ⟨hactive', hignored', ?_, ?_, ?_, isNamed_of_ofPairs hdefines⟩
  · rw [← hactive', ← hignored']
    exact Vocabulary.ensureDisjoint_eq_ok_iff.1 hdisjoint
  · rcases hword with hempty | ⟨source, -, hword⟩
    · rw [hempty]
      intro symbol hsymbol
      cases hsymbol
    · exact covers_of_normalize hword
  · intro rule hrule
    obtain ⟨entry, -, hregister⟩ := hrules rule hrule
    exact isValid_of_register hregister

/-- A described system is built from options with the same alphabets. -/
theorem isSound_of_origin {origin : Origin κ} {built : System κ} (h : origin.build = .ok built) :
    built.IsSound origin.alphabet origin.ignored := by
  cases origin with
  | options o => exact isSound_of_build (Outcome.mapError_eq_ok_iff.1 h)
  | definition d =>
      obtain ⟨options, hoptions, hbuild⟩ := Outcome.bind_eq_ok_iff.1 h
      have hsound := isSound_of_build (Outcome.mapError_eq_ok_iff.1 hbuild)
      obtain ⟨iterations, -, hoptions⟩ := Outcome.bind_eq_ok_iff.1 hoptions
      obtain ⟨productions, -, hoptions⟩ := Outcome.bind_eq_ok_iff.1 hoptions
      cases hoptions
      exact hsound

/-- **Systems are sound.** Once a system is built, nothing that is done with it, in any order and
with or without success, leaves anything in it that its vocabulary does not cover. -/
theorem isSound_after {origin : Origin κ} {built : System κ} (h : origin.build = .ok built)
    (operations : List (Operation κ)) :
    (built.after operations).IsSound origin.alphabet origin.ignored :=
  after_induction (IsSound origin.alphabet origin.ignored) (fun _ => True)
    (fun _ operation _ hsound => isSound_perform hsound operation)
    (isSound_of_origin h) operations (fun _ _ => trivial)

/-- A branching system with a choice between a phrase and a word. -/
def branching : Options Unit where
  alphabet := ["F", "X"]
  ignored := some ["[", "]"]
  word := some (.phrase "F[X]X")
  defines := [("a", 1)]
  productions :=
    [("F < X", ⟨.stochastic [(.phrase "F[X(a)]", 1), (.stochastic [(.word [⟨"F", [2]⟩], 3)], 0.5)],
      none, none, []⟩)]

/-- The branching system, taken through operations that succeed and some that fail. -/
theorem isSound_after_branching :
    ∃ built : System Unit, (Origin.options branching).build = .ok built ∧
      (built.after [.iterateN 3, .setWord (.phrase "Y"),
        .setProduction "[" ⟨.phrase "F", none, none, []⟩, .setDefine "1" 0, .setDefine "b" 2,
        .iterate, .run]).IsSound ["F", "X"] ["[", "]"] := by
  obtain ⟨built, h⟩ := Outcome.exists_of_isSome
    (show (Origin.options branching).build.toOption.isSome = true by decide +kernel)
  exact ⟨built, h, isSound_after h _⟩

end System

end GrowthGrammar
