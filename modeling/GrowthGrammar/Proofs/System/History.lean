import GrowthGrammar.Definition.Basic
import GrowthGrammar.Proofs.Outcome

/-!
# Histories of a system

A system is built from options or from a definition (`Origin`) and then changed by operations, in
any number and order. `System.perform` is one operation as a total function: an operation that
fails leaves the system as it was. `System.after` is a whole history.

What an operation can do to the parts of a system is said once (`transition_perform`), and so is
where the parts of a built system come from (`yields_of_build`); invariants of histories are derived
from these two.
-/

set_option autoImplicit false

namespace GrowthGrammar

/-- What a system can be built from. -/
inductive Origin (κ : Type) where
  | options (options : Options κ)
  | definition (definition : Definition)

namespace Origin

variable {κ : Type}

/-- The system as it is built. -/
def build : Origin κ → Except DefinitionError (System κ)
  | .options o => o.build.mapError .system
  | .definition d => d.build

/-- The active symbols that are asked for. -/
def alphabet : Origin κ → List String
  | .options o => o.alphabet
  | .definition d => d.alphabet

/-- The ignored symbols that are asked for, drawing marks unless others are chosen. -/
def ignored : Origin κ → List String
  | .options o => o.ignored.getD drawingMarks.symbols
  | .definition d => d.ignored.getD drawingMarks.symbols

end Origin

/-! ## Building -/

namespace Options

variable {κ : Type}

/-- The ignored alphabet that is asked for. -/
def ignoredAlphabet (options : Options κ) : Except AlphabetError (Alphabet .ignored) :=
  match options.ignored with
  | some symbols => Alphabet.ofList .ignored symbols
  | none => .ok drawingMarks

/-- The system that the defines, the first word and the productions are put into. -/
def bare (options : Options κ) (vocabulary : Vocabulary) : System κ where
  vocabulary := vocabulary
  word := []
  iterations := options.iterations.getD 1
  defines := Table.empty
  rules := []
  commands := []
  sampler := options.sampler.getD Sampler.seeded
  diagnostics := []

/-- Puts in the first word, if there is one. -/
def start (options : Options κ) (system : System κ) : Except PhraseError (System κ) :=
  match options.word with
  | some source => system.setWord source
  | none => .ok system

/-- Building is a row of steps. -/
theorem build_eq (options : Options κ) :
    options.build = (do
      let active ← (Alphabet.activeOfList options.alphabet).mapError .alphabet
      let ignored ← options.ignoredAlphabet.mapError .alphabet
      (Vocabulary.mk active ignored).ensureDisjoint.mapError .alphabet
      let defined ← ((options.bare ⟨active, ignored⟩).setDefines options.defines).mapError .define
      let started ← (options.start defined).mapError .phrase
      let ready ← (started.setProductions options.productions).mapError .production
      return ready.setCommands options.commands) := by
  obtain ⟨alphabet, ignored, word, iterations, defines, productions, commands, sampler⟩ := options
  cases ignored <;> cases word <;> rfl

/-- Every step of a build that has succeeded. -/
theorem exists_of_build {options : Options κ} {built : System κ} (h : options.build = .ok built) :
    ∃ vocabulary defined started ready,
      Alphabet.activeOfList options.alphabet = .ok vocabulary.active ∧
      options.ignoredAlphabet = .ok vocabulary.ignored ∧
      vocabulary.ensureDisjoint = .ok () ∧
      (options.bare vocabulary).setDefines options.defines = .ok defined ∧
      options.start defined = .ok started ∧
      started.setProductions options.productions = .ok ready ∧
      ready.setCommands options.commands = built := by
  rw [build_eq] at h
  obtain ⟨active, hactive, h⟩ := Outcome.bind_eq_ok_iff.1 h
  obtain ⟨ignored, hignored, h⟩ := Outcome.bind_eq_ok_iff.1 h
  obtain ⟨_, hdisjoint, h⟩ := Outcome.bind_eq_ok_iff.1 h
  obtain ⟨defined, hdefined, h⟩ := Outcome.bind_eq_ok_iff.1 h
  obtain ⟨started, hstarted, h⟩ := Outcome.bind_eq_ok_iff.1 h
  obtain ⟨ready, hready, h⟩ := Outcome.bind_eq_ok_iff.1 h
  cases h
  rw [Outcome.mapError_eq_ok_iff] at hactive hignored hdisjoint hdefined hstarted hready
  exact ⟨⟨active, ignored⟩, defined, started, ready, hactive, hignored, hdisjoint, hdefined,
    hstarted, hready, rfl⟩

/-- Where the parts of a built system come from. -/
structure Yields (options : Options κ) (built : System κ) : Prop where
  active : Alphabet.activeOfList options.alphabet = .ok built.vocabulary.active
  ignored : options.ignoredAlphabet = .ok built.vocabulary.ignored
  disjoint : built.vocabulary.ensureDisjoint = .ok ()
  defines : Defines.ofPairs options.defines = .ok built.defines
  word : built.word = [] ∨ ∃ source ∈ options.word,
    source.normalize built.vocabulary (Scope.ofDefines built.defines).lookup = .ok built.word
  rules : ∀ rule ∈ built.rules, ∃ entry ∈ options.productions,
    entry.2.register built.vocabulary entry.1 = .ok rule

theorem yields_of_build {options : Options κ} {built : System κ} (h : options.build = .ok built) :
    options.Yields built := by
  obtain ⟨vocabulary, defined, started, ready, hactive, hignored, hdisjoint, hdefined, hstarted,
    hready, rfl⟩ := exists_of_build h
  obtain ⟨defines, hdefines, heq⟩ := Outcome.bind_eq_ok_iff.1 hdefined
  cases heq
  obtain ⟨rules, hrules, heq⟩ := Outcome.bind_eq_ok_iff.1 hready
  cases heq
  have hregistered : ∀ rule ∈ rules, ∃ entry ∈ options.productions,
      entry.2.register started.vocabulary entry.1 = .ok rule :=
    fun rule hrule => Outcome.exists_of_mem_mapM hrules hrule
  -- the first word is put in last of what the rules do not depend on
  unfold start at hstarted
  split at hstarted
  · next source hsource =>
    obtain ⟨word, hword, heq⟩ := Outcome.bind_eq_ok_iff.1 hstarted
    cases heq
    exact ⟨hactive, hignored, hdisjoint, hdefines, .inr ⟨source, hsource, hword⟩, hregistered⟩
  · cases hstarted
    exact ⟨hactive, hignored, hdisjoint, hdefines, .inl rfl, hregistered⟩

end Options

/-! ## Operations -/

/-- Everything that can be done with a system once it is built. -/
inductive Operation (κ : Type) where
  | setWord (source : Source)
  | setIterations (iterations : Nat)
  | setSampler (sampler : Sampler)
  | setDefine (name : String) (value : Float)
  | setDefines (pairs : List (String × Float))
  | clearDefines
  | setProduction (key : String) (production : Production)
  | setProductions (productions : List (String × Production))
  | clearProductions
  | setCommand (symbol : String) (command : κ)
  | setCommands (commands : List (String × κ))
  | clearCommands
  | iterate
  | iterateN (iterations : Nat)
  | applyProductions
  /-- Carrying out the commands, which changes nothing in the system. -/
  | run

namespace Operation

variable {κ : Type}

/-- The source of the word that an operation sets. -/
def source? : Operation κ → Option Source
  | .setWord source => some source
  | _ => none

/-- The productions that an operation registers, under their keys. -/
def productions : Operation κ → List (String × Production)
  | .setProduction key production => [(key, production)]
  | .setProductions productions => productions
  | _ => []

end Operation

namespace System

variable {κ : Type}

/-- The system itself where an operation failed. -/
def orElse {ε : Type} (system : System κ) : Except ε (System κ) → System κ
  | .ok next => next
  | .error _ => system

theorem orElse_error {ε : Type} {system : System κ} {result : Except ε (System κ)} {error : ε}
    (h : result = .error error) : system.orElse result = system := by
  rw [h]
  rfl

/-- The system after one operation. -/
def perform (system : System κ) : Operation κ → System κ
  | .setWord source => system.orElse (system.setWord source)
  | .setIterations iterations => system.setIterations iterations
  | .setSampler sampler => system.setSampler sampler
  | .setDefine name value => system.orElse (system.setDefine name value)
  | .setDefines pairs => system.orElse (system.setDefines pairs)
  | .clearDefines => system.clearDefines
  | .setProduction key production => system.orElse (system.setProduction key production)
  | .setProductions productions => system.orElse (system.setProductions productions)
  | .clearProductions => system.clearProductions
  | .setCommand symbol command => system.setCommand symbol command
  | .setCommands commands => system.setCommands commands
  | .clearCommands => system.clearCommands
  | .iterate => system.iterate
  | .iterateN iterations => system.iterateN iterations
  | .applyProductions => system.applyProductions
  | .run => system

/-! ## What one operation changes -/

/-- What an operation can do to each part of a system, wherever it succeeds or fails. -/
structure Transition (system : System κ) (operation : Operation κ) (next : System κ) : Prop where
  vocabulary : next.vocabulary = system.vocabulary
  word : next.word = system.word ∨
    (∃ source ∈ operation.source?, source.normalize system.vocabulary
      (Scope.ofDefines system.defines).lookup = .ok next.word) ∨
    ∃ count, next.word = (system.setting.run system.rules 0 count system.word).word
  defines : next.defines = system.defines ∨ next.defines = Table.empty ∨
    (∃ name value, system.defines.define name value = .ok next.defines) ∨
    ∃ pairs, Defines.ofPairs pairs = .ok next.defines
  rules : ∀ rule ∈ next.rules, rule ∈ system.rules ∨ ∃ entry ∈ operation.productions,
    entry.2.register system.vocabulary entry.1 = .ok rule

theorem transition_self (system : System κ) (operation : Operation κ) :
    system.Transition operation system :=
  ⟨rfl, .inl rfl, .inl rfl, fun _ hrule => .inl hrule⟩

/-- An operation that may fail does what it does when it succeeds, or nothing. -/
theorem transition_orElse {ε : Type} {system : System κ} {operation : Operation κ}
    {result : Except ε (System κ)}
    (h : ∀ next, result = .ok next → system.Transition operation next) :
    system.Transition operation (system.orElse result) := by
  cases result with
  | error e => exact transition_self system operation
  | ok next => exact h next rfl

/-- Every operation is a transition. The cases that are not listed change no part but the number of
passes, the sampler, the commands or the diagnostics. -/
theorem transition_perform (system : System κ) (operation : Operation κ) :
    system.Transition operation (system.perform operation) := by
  have hself := transition_self system operation
  cases operation with
  | setWord source =>
      refine transition_orElse fun next hnext => ?_
      obtain ⟨word, hword, heq⟩ := Outcome.bind_eq_ok_iff.1 hnext
      cases heq
      exact { hself with word := .inr (.inl ⟨source, rfl, hword⟩) }
  | setDefine name value =>
      refine transition_orElse fun next hnext => ?_
      obtain ⟨defines, hdefines, heq⟩ := Outcome.bind_eq_ok_iff.1 hnext
      cases heq
      exact { hself with defines := .inr (.inr (.inl ⟨name, value, hdefines⟩)) }
  | setDefines pairs =>
      refine transition_orElse fun next hnext => ?_
      obtain ⟨defines, hdefines, heq⟩ := Outcome.bind_eq_ok_iff.1 hnext
      cases heq
      exact { hself with defines := .inr (.inr (.inr ⟨pairs, hdefines⟩)) }
  | clearDefines => exact { hself with defines := .inr (.inl rfl) }
  | setProduction key production =>
      refine transition_orElse fun next hnext => ?_
      obtain ⟨rule, hrule, heq⟩ := Outcome.bind_eq_ok_iff.1 hnext
      cases heq
      refine { hself with rules := fun other hother => ?_ }
      rcases List.mem_append.1 hother with hother | hother
      · exact .inl hother
      · rw [List.mem_singleton.1 hother]
        exact .inr ⟨(key, production), List.mem_singleton_self _, hrule⟩
  | setProductions productions =>
      refine transition_orElse fun next hnext => ?_
      obtain ⟨rules, hrules, heq⟩ := Outcome.bind_eq_ok_iff.1 hnext
      cases heq
      exact { hself with
        rules := fun rule hrule => .inr (Outcome.exists_of_mem_mapM hrules hrule) }
  | clearProductions => exact { hself with rules := fun _ hrule => absurd hrule List.not_mem_nil }
  | iterate => exact { hself with word := .inr (.inr ⟨system.iterations, rfl⟩) }
  | iterateN iterations => exact { hself with word := .inr (.inr ⟨iterations, rfl⟩) }
  | _ => exact { hself with }

/-! ## Histories -/

/-- The system after operations in order. -/
def after (system : System κ) (operations : List (Operation κ)) : System κ :=
  operations.foldl perform system

@[simp] theorem after_nil (system : System κ) : system.after [] = system := rfl

@[simp] theorem after_cons (system : System κ) (operation : Operation κ)
    (operations : List (Operation κ)) :
    system.after (operation :: operations) = (system.perform operation).after operations := rfl

@[simp] theorem after_concat (system : System κ) (operations : List (Operation κ))
    (operation : Operation κ) :
    system.after (operations ++ [operation]) = (system.after operations).perform operation :=
  List.foldl_append

/-- What one operation keeps, a history keeps. -/
theorem after_induction (holds : System κ → Prop) (allowed : Operation κ → Prop)
    (step : ∀ system operation, allowed operation → holds system →
      holds (system.perform operation))
    {system : System κ} (hsystem : holds system) (operations : List (Operation κ))
    (hallowed : ∀ operation ∈ operations, allowed operation) :
    holds (system.after operations) := by
  induction operations generalizing system with
  | nil => exact hsystem
  | cons operation operations ih =>
      rw [after_cons]
      have hnext : holds (system.perform operation) :=
        step system operation (hallowed operation (by simp)) hsystem
      exact ih hnext fun o ho => hallowed o (List.mem_cons_of_mem _ ho)

theorem vocabulary_after (system : System κ) (operations : List (Operation κ)) :
    (system.after operations).vocabulary = system.vocabulary :=
  after_induction (fun next => next.vocabulary = system.vocabulary) (fun _ => True)
    (fun next operation _ hnext => (transition_perform next operation).vocabulary.trans hnext)
    rfl operations (fun _ _ => trivial)

end System

end GrowthGrammar
