import GrowthGrammar.Definition.File
import GrowthGrammar.Format
import GrowthGrammar.Text.Blank

/-!
# The command line

The program expands definition files and lists the formats it can write:

    expand PATH [-n N | --iterations N] [-f NAME | --format NAME]
    list-formats

Both commands take `-v` or `--verbose`, any number of times. `Request.parse?` reads the arguments in
order, so of two faults, or of a fault and a request for help, the first counts. `run` answers a
request; it is given a way to read files and returns what is to be printed.
-/

set_option autoImplicit false

namespace GrowthGrammar.CommandLine

/-- What the arguments ask for. -/
inductive Request where
  | expand (path : String) (iterations : Option Nat) (format : String)
  | listFormats
  | version
  | help
  deriving Repr, DecidableEq

/-- The name and version of the program. -/
def versionText : String := "lsystem 0.1.0"

/-- A short description of the arguments. -/
def helpText : String :=
  "Expand L-system definitions\n\n" ++
  "Usage: lsystem [-v] expand PATH [-n N] [-f NAME]\n" ++
  "       lsystem [-v] list-formats"

/-- A number of passes: digits, perhaps behind a plus sign, of a number below `2 ^ 64`. -/
def count? (text : String) : Option Nat :=
  let digits :=
    match text.toList with
    | '+' :: rest => rest
    | cs => cs
  if digits.isEmpty || !digits.all Char.isDigit then none
  else
    let n := Decimal.value digits
    if n ≤ greatestCount then some n else none

/-- What has been read of the arguments of `expand`. -/
structure Expansion where
  path : Option String := none
  iterations : Option Nat := none
  format : Option String := none

/-- The options of `expand` that take a value. -/
inductive Setting where
  | iterations
  | format
  deriving DecidableEq

namespace Expansion

/-- Sets an option, which may be given once. -/
def set? (e : Expansion) (setting : Setting) (value : String) : Option Expansion :=
  match setting with
  | .iterations =>
    if e.iterations.isSome then none
    else (count? value).map fun n => { e with iterations := some n }
  | .format => if e.format.isSome then none else some { e with format := some value }

/-- Sets the path, which may be given once. -/
def setPath? (e : Expansion) (path : String) : Option Expansion :=
  if e.path.isSome then none else some { e with path := some path }

/-- The request, if there is a path. -/
def request? (e : Expansion) : Option Request :=
  e.path.map fun path => .expand path e.iterations (e.format.getD "symbols")

end Expansion

/-- What a cluster of short options, such as `-vn3`, comes to. -/
inductive Cluster where
  | done
  | help
  | version
  /-- An option with the value attached to it, or with the value in the next argument. -/
  | setting (setting : Setting) (value : Option String)

/-- The value attached to a short option; an equals sign before it does not count. -/
def attached (cs : List Char) : Option String :=
  match cs with
  | [] => none
  | '=' :: value => some (String.ofList value)
  | value => some (String.ofList value)

/-- Reads a cluster of the short options of `expand`. -/
def expandCluster? : List Char → Option Cluster
  | [] => some .done
  | 'v' :: rest => expandCluster? rest
  | 'h' :: _ => some .help
  | 'n' :: rest => some (.setting .iterations (attached rest))
  | 'f' :: rest => some (.setting .format (attached rest))
  | _ => none

/-- Reads a cluster of the short options of the other levels. -/
def plainCluster? (hasVersion : Bool) : List Char → Option Cluster
  | [] => some .done
  | 'v' :: rest => plainCluster? hasVersion rest
  | 'h' :: _ => some .help
  | 'V' :: _ => if hasVersion then some .version else none
  | _ => none

/-- The option that a long name stands for, with the value behind an equals sign. -/
def longSetting? (arg : List Char) : Option (Setting × Option String) :=
  let name := arg.takeWhile (· != '=')
  let value :=
    match arg.dropWhile (· != '=') with
    | _ :: value => some (String.ofList value)
    | [] => none
  if name == "--iterations".toList then some (.iterations, value)
  else if name == "--format".toList then some (.format, value)
  else none

/-- Whether an argument is taken for an option. A hyphen alone is a name like any other. -/
def isOption (arg : String) : Bool :=
  match arg.toList with
  | '-' :: _ :: _ => true
  | _ => false

/-- Reads the arguments behind `expand`. -/
def parseExpand? (e : Expansion) : List String → Option Request
  | [] => e.request?
  | arg :: args =>
    match arg.toList with
    | ['-', '-'] => do
      let e ← args.foldlM Expansion.setPath? e
      e.request?
    | '-' :: '-' :: _ =>
      if arg == "--verbose" then parseExpand? e args
      else if arg == "--help" then some .help
      else
        match longSetting? arg.toList with
        | none => none
        | some (setting, some value) => do parseExpand? (← e.set? setting value) args
        | some (setting, none) =>
          match args with
          | value :: args =>
            if isOption value then none else do parseExpand? (← e.set? setting value) args
          | [] => none
    | '-' :: c :: cs =>
      match expandCluster? (c :: cs) with
      | none => none
      | some .done => parseExpand? e args
      | some .help => some .help
      | some .version => some .version
      | some (.setting setting (some value)) => do parseExpand? (← e.set? setting value) args
      | some (.setting setting none) =>
        match args with
        | value :: args =>
          if isOption value then none else do parseExpand? (← e.set? setting value) args
        | [] => none
    | _ => do parseExpand? (← e.setPath? arg) args

/-- Reads the arguments behind `list-formats`. -/
def parseListFormats? : List String → Option Request
  | [] => some .listFormats
  | arg :: args =>
    if arg == "--verbose" then parseListFormats? args
    else if arg == "--help" then some .help
    else if arg == "--" then (if args.isEmpty then some .listFormats else none)
    else
      match arg.toList with
      | '-' :: c :: cs =>
        match plainCluster? false (c :: cs) with
        | some .done => parseListFormats? args
        | some .help => some .help
        | _ => none
      | _ => none

/-- Reads the arguments behind `help`: at most the name of a command. -/
def parseHelp? (args : List String) : Option Request :=
  match args with
  | [] => some .help
  | [name] => if ["expand", "list-formats", "help"].contains name then some .help else none
  | _ => none

/-- Reads the arguments of the program. -/
def Request.parse? : List String → Option Request
  | [] => none
  | arg :: args =>
    if arg == "expand" then parseExpand? {} args
    else if arg == "list-formats" then parseListFormats? args
    else if arg == "help" then parseHelp? args
    else if arg == "--verbose" then Request.parse? args
    else if arg == "--version" then some .version
    else if arg == "--help" then some .help
    else
      match arg.toList with
      | '-' :: '-' :: _ => none
      | '-' :: c :: cs =>
        match plainCluster? true (c :: cs) with
        | some .done => Request.parse? args
        | some .help => some .help
        | some .version => some .version
        | _ => none
      | _ => none

/-- What a run of the program leaves behind. -/
structure Outcome where
  code : Nat
  output : String := ""
  /-- The line on the error channel that says why the program failed. -/
  failure : Option String := none
  /-- The occurrences that a pass failed to replace. -/
  warnings : List Diagnostic := []
  deriving DecidableEq

/-- A failure after the arguments were understood. -/
def Outcome.failed (failure : String) (warnings : List Diagnostic) : Outcome :=
  { code := 1, failure := some failure, warnings }

/-- The listing of the formats that are built in. -/
def listing : String :=
  "Available formats:\n\n" ++
    String.join (Registry.builtin.formats.map fun format =>
      "  " ++ format.name ++ "\n    " ++ format.description ++ "\n")

/-- Expands a definition and writes the last word. -/
def expand (definition : Definition) (iterations : Option Nat) (format : String) : Outcome :=
  match (definition.build : Except DefinitionError (System Unit)) with
  | .error error => .failed ("Invalid definition: " ++ error.message) []
  | .ok system =>
    let system :=
      match iterations with
      | some n => system.iterateN n
      | none => system.iterate
    match system.serialize format with
    | .error error => .failed ("Serialization error: " ++ error.message) system.diagnostics
    | .ok text =>
      { code := 0
        output := String.ofList (Text.trimRight text.toList) ++ "\n"
        warnings := system.diagnostics }

/-- Answers the arguments of the program. Arguments that are no request end it with code 2. -/
def run {m : Type → Type} [Monad m] (read : String → m (Option String)) (args : List String) :
    m Outcome :=
  match Request.parse? args with
  | none => return { code := 2 }
  | some .help => return { code := 0, output := helpText ++ "\n" }
  | some .version => return { code := 0, output := versionText ++ "\n" }
  | some .listFormats => return { code := 0, output := listing }
  | some (.expand path iterations format) => do
    match ← Definition.ofFile read path with
    | .error error => return .failed ("Error loading definition: " ++ error.message) []
    | .ok definition => return expand definition iterations format

end GrowthGrammar.CommandLine
