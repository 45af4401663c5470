import GrowthGrammar.Definition.Basic
import GrowthGrammar.Document
import GrowthGrammar.Json.Reading
import GrowthGrammar.Json.Value

/-!
# Definitions as documents

How a definition is read from a document, and how it is written as JSON. Absent fields take their
defaults, and a field at its default is left out again when the definition is written; only the first
word is always written.
-/

set_option autoImplicit false

namespace GrowthGrammar

/-- Reads an alternative. -/
def AlternativeSpec.decode (node : Node) : Decoder AlternativeSpec := do
  let fields ← node.asRecord ["successor", "weight"]
  let successor ← requiredField Node.asText fields "successor"
  let weight ← requiredField Node.asNumber fields "weight"
  return { successor, weight }

/-- Reads a context. -/
def ContextSpec.decode (node : Node) : Decoder ContextSpec := do
  let fields ← node.asRecord ["before", "after"]
  let before ← optionalField Node.asText fields "before"
  let after ← optionalField Node.asText fields "after"
  return { before, after }

/-- Reads a production. -/
def ProductionSpec.decode (node : Node) : Decoder ProductionSpec := do
  let fields ← node.asRecord ["key", "successor", "stochastic", "context"]
  let key ← requiredField Node.asText fields "key"
  let successor ← optionalField Node.asText fields "successor"
  let stochastic ← optionalField (Node.asListOf AlternativeSpec.decode) fields "stochastic"
  let context ← optionalField ContextSpec.decode fields "context"
  return { key, successor, stochastic, context }

/-- Reads a table of numbers; of two values for one name the later counts. -/
def decodeNumbers (node : Node) : Decoder (Table Float) := do
  let entries ← node.asEntries
  let numbers ← entries.mapM fun (name, value) => do
    let number ← value.asNumber
    return (name, number)
  return Table.ofList numbers

/-- The names of the fields of a definition, in their order. -/
def Definition.fieldNames : List String :=
  ["alphabet", "ignored_symbols", "axiom", "iterations", "defines", "productions"]

/-- Reads a definition. Only the alphabet has to be there. -/
def Definition.decode (node : Node) : Decoder Definition := do
  let fields ← node.asRecord fieldNames
  let alphabet ← requiredField (Node.asListOf Node.asText) fields "alphabet"
  let ignored ← optionalField (Node.asListOf Node.asText) fields "ignored_symbols"
  let start ← fieldOr "" Node.asText fields "axiom"
  let iterations ← optionalField Node.asNumber fields "iterations"
  let defines ← fieldOr Table.empty decodeNumbers fields "defines"
  let productions ← fieldOr [] (Node.asListOf ProductionSpec.decode) fields "productions"
  return { alphabet, ignored, start, iterations, defines, productions }

/-- Reads a letter. -/
def Letter.decode (node : Node) : Decoder Letter := do
  let fields ← node.asRecord ["symbol", "params"]
  let symbol ← requiredField Node.asText fields "symbol"
  let params ← fieldOr [] (Node.asListOf Node.asNumber) fields "params"
  return { symbol, params }

/-- Reads a word, a list of letters. -/
def Word.decode (node : Node) : Decoder Word :=
  node.asListOf Letter.decode

/-- The word that a JSON text lists. -/
def Word.ofJson? (source : String) : Option Word :=
  (Json.read? source).bind (Document.decode? Word.decode)

/-- A member that is written only if it has a value. -/
def optionalMember {α : Type} (name : String) (encode : α → Json) (value : Option α) :
    List (String × Json) :=
  match value with
  | some value => [(name, encode value)]
  | none => []

/-- A list of texts. -/
def textArray (texts : List String) : Json :=
  .array (texts.map .string)

/-- An alternative as JSON. -/
def AlternativeSpec.toJson (spec : AlternativeSpec) : Json :=
  .object [("successor", .string spec.successor), ("weight", .number spec.weight)]

/-- A context as JSON. -/
def ContextSpec.toJson (spec : ContextSpec) : Json :=
  .object (optionalMember "before" .string spec.before ++ optionalMember "after" .string spec.after)

/-- A production as JSON. -/
def ProductionSpec.toJson (spec : ProductionSpec) : Json :=
  .object
    (("key", .string spec.key) ::
      (optionalMember "successor" .string spec.successor ++
        optionalMember "stochastic" (fun items => .array (items.map AlternativeSpec.toJson))
          spec.stochastic ++
        optionalMember "context" ContextSpec.toJson spec.context))

/-- A definition as JSON. -/
def Definition.toJson (definition : Definition) : Json :=
  let defines :=
    if definition.defines.entries.isEmpty then []
    else
      [("defines", .object (definition.defines.entries.map fun entry => (entry.1, .number entry.2)))]
  let productions :=
    if definition.productions.isEmpty then []
    else [("productions", Json.array (definition.productions.map ProductionSpec.toJson))]
  .object
    (("alphabet", textArray definition.alphabet) ::
      (optionalMember "ignored_symbols" textArray definition.ignored ++
        ("axiom", .string definition.start) ::
          (optionalMember "iterations" .number definition.iterations ++ defines ++ productions)))

/-- The JSON text of a definition. -/
def Definition.jsonText (definition : Definition) : String :=
  String.ofList definition.toJson.compact

/-- The definition that a JSON text is. -/
def Definition.ofJson? (source : String) : Option Definition :=
  (Json.read? source).bind (Document.decode? Definition.decode)

end GrowthGrammar
