import GrowthGrammar.Definition.Reading
import GrowthGrammar.Yaml.Reading

/-!
# Definition files

A definition is kept in a JSON or a YAML file, told apart by the extension of the file's name in any
case. `Definition.ofFile` is given the name and what the file contains, if it can be read as text.
-/

set_option autoImplicit false

namespace GrowthGrammar

/-- The formats of definition files. -/
inductive FileFormat where
  | yaml
  | json
  deriving Repr, DecidableEq

/-- Why a file gave no definition. -/
inductive LoadError where
  | unsupportedFormat (path : String)
  /-- There is no such file, or it is not text. -/
  | unreadable (path : String)
  | malformed (format : FileFormat)
  deriving Repr, DecidableEq

/-- The wording of a load error. -/
def LoadError.message : LoadError → String
  | unsupportedFormat path =>
    s!"unsupported configuration format for '{path}' (expected .yaml, .yml or .json)"
  | unreadable path => s!"cannot read '{path}': no such text"
  | malformed .yaml => "invalid YAML: the text is not a definition"
  | malformed .json => "invalid JSON: the text is not a definition"

/-- The last name in a path, if it is the name of a file. -/
def fileName? (path : List Char) : Option (List Char) :=
  let segments := (path.splitOn '/').filter fun segment => !segment.isEmpty && segment != ['.']
  match segments.getLast? with
  | some name => if name == ['.', '.'] then none else some name
  | none => none

/-- What stands behind the last point of a file name, unless the point is its first character. -/
def extension? (name : List Char) : Option (List Char) :=
  let reversed := name.reverse
  match reversed.dropWhile (· != '.') with
  | _ :: before =>
    if before.isEmpty then none else some (reversed.takeWhile (· != '.')).reverse
  | [] => none

/-- The format that the extension of a path asks for. -/
def FileFormat.ofPath? (path : String) : Option FileFormat := do
  let name ← fileName? path.toList
  let extension ← extension? name
  match String.ofList (extension.map Char.toLower) with
  | "yaml" | "yml" => some .yaml
  | "json" => some .json
  | _ => none

namespace Definition

/-- The definition that a YAML text is. -/
def ofYaml? (source : String) : Option Definition :=
  (Yaml.read? source).bind (Document.decode? Definition.decode)

/-- The definition that a text in the given format is. -/
def ofText (format : FileFormat) (source : String) : Except LoadError Definition :=
  let definition :=
    match format with
    | .yaml => ofYaml? source
    | .json => ofJson? source
  match definition with
  | some definition => .ok definition
  | none => .error (.malformed format)

/-- The definition in a file. The format is looked at before the file is read. -/
def ofFile {m : Type → Type} [Monad m] (read : String → m (Option String)) (path : String) :
    m (Except LoadError Definition) :=
  match FileFormat.ofPath? path with
  | none => return .error (.unsupportedFormat path)
  | some format => do
    match ← read path with
    | none => return .error (.unreadable path)
    | some source => return ofText format source

end Definition

end GrowthGrammar
