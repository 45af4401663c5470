import GrowthGrammar.Json.Value
import GrowthGrammar.System
import GrowthGrammar.Table
import GrowthGrammar.Yaml.Writing

/-!
# Output formats

A format has a name, a line of description and a way to write words. A `Registry` keeps formats by
name; registering a second format under a name shadows the first. Four formats are built in: the
symbols alone, phrase syntax with parameters, and lists of letters in JSON and YAML.
-/

set_option autoImplicit false

namespace GrowthGrammar

/-- Why a word was not written. -/
inductive FormatError where
  | notFound (name : String)
  /-- A format gave up, for a reason of its own. -/
  | serialization (reason : String)
  deriving Repr, DecidableEq

/-- The wording of a format error. -/
def FormatError.message : FormatError → String
  | notFound name => s!"format '{name}' not found"
  | serialization reason => "serialization error: " ++ reason

/-- A way to write words. -/
structure Format where
  name : String
  /-- One line for listings. -/
  description : String := ""
  write : Word → Except FormatError String

/-- A letter as JSON. Parameters are left out when there are none. -/
def Letter.toJson (letter : Letter) : Json :=
  .object
    (("symbol", .string letter.symbol) ::
      if letter.params.isEmpty then [] else [("params", .array (letter.params.map .number))])

/-- The word as a JSON list of letters, over several lines. -/
def Word.jsonText (word : Word) : String :=
  String.ofList ((Json.array (word.map Letter.toJson)).pretty 0)

namespace Format

/-- The symbols in a row. -/
def symbols : Format where
  name := "symbols"
  description := "Concatenated symbols, parameters dropped"
  write word := .ok word.symbolText

/-- Phrase syntax, which can be read again. -/
def parametric : Format where
  name := "parametric"
  description := "Symbols with their parameters"
  write word := .ok word.text

/-- A list of letters in JSON. -/
def json : Format where
  name := "json"
  description := "JSON list of parts"
  write word := .ok word.jsonText

/-- A list of letters in YAML. -/
def yaml : Format where
  name := "yaml"
  description := "YAML list of parts"
  write word := .ok (Yaml.writeWord word)

end Format

/-- Formats by name. -/
abbrev Registry := Table Format

namespace Registry

/-- Adds a format under its name. -/
def register (registry : Registry) (format : Format) : Registry :=
  registry.insert format.name format

/-- The formats that are built in. -/
def builtin : Registry :=
  [Format.symbols, .parametric, .json, .yaml].foldl register Table.empty

/-- The formats in the order of their names. -/
def formats (registry : Registry) : List Format :=
  registry.entries.map Prod.snd

/-- Writes a word in the format of a name. -/
def write (registry : Registry) (name : String) (word : Word) : Except FormatError String :=
  match registry.get? name with
  | some format => format.write word
  | none => .error (.notFound name)

end Registry

/-- The current word in one of the formats that are built in. -/
def System.serialize {κ : Type} (system : System κ) (name : String) : Except FormatError String :=
  Registry.builtin.write name system.word

end GrowthGrammar
