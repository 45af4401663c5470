import GrowthGrammar.Context
import GrowthGrammar.Word

/-!
# Productions

A production says what becomes of a symbol. Its successor is a phrase, a word, a computed result, or
a weighted set of alternatives, nested to any depth. A context and a condition may restrict where it
applies. Conditions and computed successors are arbitrary functions of an occurrence; they see the
word as it was before the current pass.

A `Production` is what a caller writes, a `Rule` is what is registered after validation.
-/

set_option autoImplicit false

namespace GrowthGrammar

/-- A letter of a word, with its position. -/
structure Occurrence where
  word : Word
  index : Nat
  letter : Letter

/-- What becomes of an occurrence under a production. -/
inductive Resolution where
  /-- The production does not apply. -/
  | noMatch
  | replace (source : Source)
  deriving DecidableEq

/-- The replacement that a production yields. -/
inductive Successor where
  /-- Read when an occurrence is replaced, with the parameter names bound. -/
  | phrase (text : String)
  /-- Used as it is. -/
  | word (word : Word)
  /-- Computed when an occurrence is replaced. -/
  | computed (result : Occurrence → Resolution)
  /-- One of several alternatives, drawn by weight. -/
  | stochastic (alternatives : List (Successor × Float))

/-- One side of a context: a phrase to be read, or symbols as they are. -/
inductive Pattern where
  | phrase (text : String)
  | symbols (symbols : List String)
  deriving Repr, DecidableEq

/-- The patterns that the neighbours of an occurrence must satisfy. -/
structure Context where
  before : Option Pattern := none
  after : Option Pattern := none
  deriving Repr, DecidableEq

/-- Whether a context asks for nothing. -/
def Context.isEmpty (context : Context) : Bool :=
  context.before.isNone && context.after.isNone

/-- A production as it is written. Its key may also name a context and parameters. -/
structure Production where
  successor : Successor
  context : Option Context := none
  condition : Option (Occurrence → Bool) := none
  params : List String := []

/-- The symbols asked for on each side; a side that asks for nothing is none. -/
structure Surroundings where
  before : Option (List String)
  after : Option (List String)
  deriving Repr, DecidableEq

/-- A validated production of one symbol. -/
structure Rule where
  symbol : String
  successor : Successor
  surroundings : Option Surroundings
  condition : Option (Occurrence → Bool)
  params : List String

end GrowthGrammar
