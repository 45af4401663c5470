import GrowthGrammar.System

/-!
# Definitions

A definition describes a system as plain data, so that it can be kept in a file: alphabets, a first
word, a number of passes, defines and productions. Productions are listed in order of priority.
Conditions, computed successors and commands are functions and have no place in a definition.

`Definition.options` turns a definition into the options a system is built from, `Definition.build`
builds the system.
-/

set_option autoImplicit false

namespace GrowthGrammar

/-- One alternative of a described production. -/
structure AlternativeSpec where
  successor : String
  weight : Float
  deriving DecidableEq

/-- The context of a described production. -/
structure ContextSpec where
  before : Option String
  after : Option String
  deriving Repr, DecidableEq

/-- A described production. It needs exactly one of a successor and a set of alternatives. -/
structure ProductionSpec where
  key : String
  successor : Option String
  stochastic : Option (List AlternativeSpec)
  context : Option ContextSpec
  deriving DecidableEq

/-- A described system. -/
structure Definition where
  alphabet : List String
  /-- Drawing marks if absent. -/
  ignored : Option (List String)
  /-- The phrase of the first word. -/
  start : String
  /-- Rounded down to a whole number of passes. -/
  iterations : Option Float
  defines : Table Float
  productions : List ProductionSpec
  deriving DecidableEq

/-- Why a definition describes no system. -/
inductive DefinitionError where
  | invalidIterations (value : Float)
  /-- A production with neither or both kinds of successor. -/
  | ambiguousProduction (key : String)
  | system (cause : SystemError)
  deriving DecidableEq

/-- The wording of a definition error. -/
def DefinitionError.message : DefinitionError → String
  | invalidIterations value =>
    "iterations must be a non-negative finite number, got " ++ Decimal.plainText value
  | ambiguousProduction key =>
    s!"production '{key}' needs exactly one of `successor` or `stochastic`"
  | system cause => cause.message

/-- The greatest number of passes that can be set. -/
def greatestCount : Nat := Nat.pow 2 64 - 1

/-- The whole part of a finite double that is not negative, at most `greatestCount`. -/
def wholeCount (x : Float) : Nat :=
  let b := Decimal.Binary.ofFloat x
  min greatestCount (b.significand * Nat.pow 2 b.exponent.toNat / Nat.pow 2 (-b.exponent).toNat)

/-- The patterns of a described context. -/
def ContextSpec.context (spec : ContextSpec) : Context :=
  ⟨spec.before.map .phrase, spec.after.map .phrase⟩

/-- The successor of a described production. -/
def ProductionSpec.resolveSuccessor (spec : ProductionSpec) : Except DefinitionError Successor :=
  match spec.successor, spec.stochastic with
  | some text, none => .ok (.phrase text)
  | none, some alternatives =>
    .ok (.stochastic (alternatives.map fun item => (.phrase item.successor, item.weight)))
  | _, _ => .error (.ambiguousProduction spec.key)

/-- The production that is described. -/
def ProductionSpec.production (spec : ProductionSpec) : Except DefinitionError Production := do
  let successor ← spec.resolveSuccessor
  return { successor, context := spec.context.map ContextSpec.context }

namespace Definition

/-- The number of passes, if one is given. -/
def iterationCount (definition : Definition) : Except DefinitionError (Option Nat) :=
  match definition.iterations with
  | none => .ok none
  | some value =>
    if value.isFinite && 0 ≤ value then .ok (some (wholeCount value))
    else .error (.invalidIterations value)

/-- The options of the system that is described. -/
def options {κ : Type} (definition : Definition) : Except DefinitionError (Options κ) := do
  let iterations ← definition.iterationCount
  let productions ← definition.productions.mapM fun spec => do
    let production ← spec.production
    return (spec.key, production)
  return {
    alphabet := definition.alphabet
    ignored := definition.ignored
    word := some (.phrase definition.start)
    iterations
    defines := definition.defines.entries
    productions }

/-- Builds the system that is described. -/
def build {κ : Type} (definition : Definition) : Except DefinitionError (System κ) := do
  let options ← definition.options
  options.build.mapError .system

end Definition

end GrowthGrammar
