import GrowthGrammar.Phrase.Normal
import GrowthGrammar.Production.Key
import GrowthGrammar.Production.Rule
import GrowthGrammar.Sampling.Sampler

/-!
# Registering productions

Whatever can be checked without a word is checked when a production is registered: its symbol is
active, its patterns can be read, its phrases can be scanned, the symbols of its words are known, and
every set of alternatives has weights to draw by. `Production.register` makes the checks in a fixed
order and yields a `Rule`, or the first fault.
-/

set_option autoImplicit false

namespace GrowthGrammar

/-- Why a production was refused. -/
inductive ProductionError where
  | malformedKey (key : String) (fault : KeyFault)
  | notInAlphabet (symbol : String)
  | emptyStochastic (symbol : String)
  | invalidWeight (symbol : String) (weight : Float)
  | nonPositiveTotal (symbol : String) (total : Float)
  | context (symbol : String) (cause : PhraseError)
  | successor (symbol : String) (cause : PhraseError)
  deriving DecidableEq

/-- The wording of a production error. -/
def ProductionError.message : ProductionError → String
  | malformedKey key fault => s!"malformed production key '{key}': " ++ fault.message
  | notInAlphabet symbol => s!"production symbol '{symbol}' is not part of the active alphabet"
  | emptyStochastic symbol => s!"stochastic production for '{symbol}' has no alternatives"
  | invalidWeight symbol weight =>
    s!"stochastic production for '{symbol}' has invalid weight " ++ Decimal.plainText weight
  | nonPositiveTotal symbol total =>
    s!"stochastic production for '{symbol}' has non-positive total weight " ++
      Decimal.plainText total
  | context symbol cause => s!"invalid context for '{symbol}': " ++ cause.message
  | successor symbol cause => s!"invalid successor for '{symbol}': " ++ cause.message

mutual

/-- Checks a successor of a symbol. A computed successor is checked when its result is spliced. -/
def Successor.validate (vocabulary : Vocabulary) (symbol : String) :
    Successor → Except ProductionError Unit
  | .phrase text => do
    let _ ← (Phrase.scan vocabulary text).mapError (.successor symbol)
    return ()
  | .word word =>
    (vocabulary.ensureKnown (word.map Letter.symbol)).mapError (.successor symbol)
  | .computed _ => .ok ()
  | .stochastic alternatives =>
    if alternatives.isEmpty then .error (.emptyStochastic symbol)
    else do
      let total ← validateAlternatives vocabulary symbol 0 alternatives
      if total ≤ 0 then .error (.nonPositiveTotal symbol total) else .ok ()

/-- Checks alternatives in order, each weight before its successor, and adds up the weights. -/
def validateAlternatives (vocabulary : Vocabulary) (symbol : String) (total : Float) :
    List (Successor × Float) → Except ProductionError Float
  | [] => .ok total
  | (successor, weight) :: rest =>
    if isWeight weight then do
      successor.validate vocabulary symbol
      validateAlternatives vocabulary symbol (total + weight) rest
    else .error (.invalidWeight symbol weight)

end

/-- The symbols of one side of a context. -/
def Pattern.resolve (vocabulary : Vocabulary) : Pattern → Except PhraseError (List String)
  | .phrase text => Phrase.symbols vocabulary text
  | .symbols listed => do
    vocabulary.ensureKnown listed
    return listed

/-- The symbols of both sides of a context, the side before first. -/
def Context.resolve (vocabulary : Vocabulary) (context : Context) :
    Except PhraseError Surroundings := do
  let before ← context.before.mapM (Pattern.resolve vocabulary)
  let after ← context.after.mapM (Pattern.resolve vocabulary)
  return ⟨before, after⟩

/-- The context written in a key. -/
def Key.context (key : Key) : Context :=
  ⟨key.before.map .phrase, key.after.map .phrase⟩

/-- Validates a production under a key. A context on the production counts before one in the key,
and parameter names in the key count before those of the production. -/
def Production.register (vocabulary : Vocabulary) (key : String) (production : Production) :
    Except ProductionError Rule := do
  let parsed ← (Key.parse key).mapError (.malformedKey key)
  let symbol := parsed.symbol
  if symbol ∉ vocabulary.active then .error (.notInAlphabet symbol)
  else
    let context := production.context.getD parsed.context
    let surroundings ←
      if context.isEmpty then .ok none
      else ((context.resolve vocabulary).mapError (.context symbol)).map some
    production.successor.validate vocabulary symbol
    let params := if parsed.params.isEmpty then production.params else parsed.params
    return ⟨symbol, production.successor, surroundings, production.condition, params⟩

end GrowthGrammar
