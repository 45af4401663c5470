import GrowthGrammar.Production.Registration
import GrowthGrammar.Derivation.Pass

/-!
# Systems

A system is a vocabulary, a current word, defines, rules, commands and a sampler. It is built from
`Options` in a fixed order, and then changed by operations that each return a new system. An
operation that fails leaves the system as it was, so the failing ones return an error alone.

A command is any value; `System.invocations` lists which command is invoked with which letter, and
what a command does is up to whoever carries them out.
-/

set_option autoImplicit false

namespace GrowthGrammar

/-- Why a system could not be built. -/
inductive SystemError where
  | alphabet (cause : AlphabetError)
  | define (cause : DefineError)
  | phrase (cause : PhraseError)
  | production (cause : ProductionError)
  deriving DecidableEq

/-- The wording of a system error. -/
def SystemError.message : SystemError → String
  | alphabet cause => cause.message
  | define cause => cause.message
  | phrase cause => cause.message
  | production cause => cause.message

/-- A growth grammar with its current word and its commands, which are of the type `κ`. -/
structure System (κ : Type) where
  vocabulary : Vocabulary
  word : Word
  iterations : Nat
  defines : Defines
  /-- Rules of all symbols, in the order of their registration. A symbol only meets its own
  (`productionsFor`). -/
  rules : List Rule
  /-- Commands under symbols; the first one listed for a symbol counts. -/
  commands : List (String × κ)
  sampler : Sampler
  /-- The occurrences that the last passes failed to replace. -/
  diagnostics : List Diagnostic

/-- What a system is built from. -/
structure Options (κ : Type) where
  alphabet : List String := []
  /-- Drawing marks if absent. -/
  ignored : Option (List String) := none
  word : Option Source := none
  /-- One if absent. -/
  iterations : Option Nat := none
  defines : List (String × Float) := []
  productions : List (String × Production) := []
  commands : List (String × κ) := []
  /-- The seeded sampler if absent. -/
  sampler : Option Sampler := none

/-- A command to carry out, with the letter it was found for. -/
structure Invocation (κ : Type) where
  command : κ
  index : Nat
  letter : Letter

namespace System

variable {κ : Type}

/-- The setting of a pass over the current word. -/
def setting (system : System κ) : Setting :=
  ⟨system.vocabulary, system.defines, system.sampler⟩

/-- The rules of a symbol, in order of priority. A registration adds to the rules of one symbol
(`productionsFor_of_setProduction`), and a run depends on nothing else (`Setting.run_congr`). -/
def productionsFor (system : System κ) (symbol : String) : List Rule :=
  rulesFor system.rules symbol

/-- Replaces the current word. -/
def setWord (system : System κ) (source : Source) : Except PhraseError (System κ) := do
  let word ← source.normalize system.vocabulary (Scope.ofDefines system.defines).lookup
  return { system with word }

/-- Sets the number of passes of `iterate`. -/
def setIterations (system : System κ) (iterations : Nat) : System κ :=
  { system with iterations }

/-- Replaces the sampler. -/
def setSampler (system : System κ) (sampler : Sampler) : System κ :=
  { system with sampler }

/-- Sets one define. -/
def setDefine (system : System κ) (name : String) (value : Float) :
    Except DefineError (System κ) := do
  let defines ← system.defines.define name value
  return { system with defines }

/-- Replaces all defines. -/
def setDefines (system : System κ) (pairs : List (String × Float)) :
    Except DefineError (System κ) := do
  let defines ← Defines.ofPairs pairs
  return { system with defines }

/-- Drops all defines. -/
def clearDefines (system : System κ) : System κ :=
  { system with defines := Table.empty }

/-- Registers a production behind those registered before. -/
def setProduction (system : System κ) (key : String) (production : Production) :
    Except ProductionError (System κ) := do
  let rule ← production.register system.vocabulary key
  return { system with rules := system.rules ++ [rule] }

/-- Replaces all productions. Every production is validated first. -/
def setProductions (system : System κ) (productions : List (String × Production)) :
    Except ProductionError (System κ) := do
  let rules ← productions.mapM fun (key, production) => production.register system.vocabulary key
  return { system with rules }

/-- Drops all productions. -/
def clearProductions (system : System κ) : System κ :=
  { system with rules := [] }

/-- Sets the command of a symbol. -/
def setCommand (system : System κ) (symbol : String) (command : κ) : System κ :=
  { system with commands := (symbol, command) :: system.commands }

/-- Replaces all commands; of two commands for one symbol the later counts. -/
def setCommands (system : System κ) (commands : List (String × κ)) : System κ :=
  { system with commands := commands.reverse }

/-- Drops all commands. -/
def clearCommands (system : System κ) : System κ :=
  { system with commands := [] }

/-- The passes of `iterate` over the current word. -/
def passes (system : System κ) : Run :=
  system.setting.run system.rules 0 system.iterations system.word

/-- Runs the set number of passes and keeps the result as the current word. -/
def iterate (system : System κ) : System κ :=
  let run := system.passes
  { system with word := run.word, diagnostics := run.diagnostics }

/-- Sets the number of passes and runs them. -/
def iterateN (system : System κ) (iterations : Nat) : System κ :=
  (system.setIterations iterations).iterate

/-- The result of one pass. -/
def applied (system : System κ) : Word :=
  (system.setting.sweep system.rules 0 system.word).letters.toList

/-- The draws of one pass. -/
def appliedDraws (system : System κ) : List Draw :=
  system.setting.passDraws system.rules system.word

/-- Keeps the diagnostics of one pass and leaves the current word as it is. -/
def applyProductions (system : System κ) : System κ :=
  { system with
    diagnostics := (system.setting.sweep system.rules 0 system.word).diagnostics.toList }

/-- The commands to carry out over the current word, in order. -/
def invocations (system : System κ) : List (Invocation κ) :=
  system.word.zipIdx.filterMap fun (letter, index) =>
    (system.commands.lookup letter.symbol).map fun command => ⟨command, index, letter⟩

/-! ## The rules of each symbol -/

/-- One registration puts its rule behind those of the rule's own symbol. The rules of all other
symbols stay. -/
theorem productionsFor_of_setProduction {system next : System κ} {key : String}
    {production : Production} (h : system.setProduction key production = .ok next) :
    ∃ rule, production.register system.vocabulary key = .ok rule ∧
      ∀ symbol, next.productionsFor symbol =
        if rule.symbol = symbol then system.productionsFor symbol ++ [rule]
        else system.productionsFor symbol := by
  unfold setProduction at h
  cases hregister : production.register system.vocabulary key with
  | error error =>
    rw [hregister] at h
    cases h
  | ok rule =>
    rw [hregister] at h
    cases h
    exact ⟨rule, rfl, rulesFor_concat system.rules rule⟩

@[simp] theorem productionsFor_clearProductions (system : System κ) (symbol : String) :
    system.clearProductions.productionsFor symbol = [] := rfl

end System

/-- Builds a system: alphabets, defines, the first word, productions, and last the commands. The
first fault in this order is the error. -/
def Options.build {κ : Type} (options : Options κ) : Except SystemError (System κ) := do
  let active ← (Alphabet.activeOfList options.alphabet).mapError .alphabet
  let ignored ←
    match options.ignored with
    | some symbols => (Alphabet.ofList .ignored symbols).mapError .alphabet
    | none => .ok drawingMarks
  let vocabulary : Vocabulary := ⟨active, ignored⟩
  vocabulary.ensureDisjoint.mapError .alphabet
  -- defines come before the word, whose parameters may name them
  let bare : System κ :=
    { vocabulary
      word := []
      iterations := options.iterations.getD 1
      defines := Table.empty
      rules := []
      commands := []
      sampler := options.sampler.getD Sampler.seeded
      diagnostics := [] }
  let defined ← (bare.setDefines options.defines).mapError .define
  let started ←
    match options.word with
    | some source => (defined.setWord source).mapError .phrase
    | none => .ok defined
  let ready ← (started.setProductions options.productions).mapError .production
  return ready.setCommands options.commands

end GrowthGrammar
