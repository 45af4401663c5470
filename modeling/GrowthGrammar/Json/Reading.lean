import GrowthGrammar.Document
import GrowthGrammar.Json.Number
import GrowthGrammar.Json.Quoted

/-!
# Reading JSON

The document that a JSON text is. A number beyond every double and a string with half a pair are well
formed, but read as nothing; so they do no harm in a place that is passed over. A list may stand for a
record.
-/

set_option autoImplicit false

namespace GrowthGrammar.Json

/-- The text without the spaces and line breaks at its start. -/
def skipSpace (cs : List Char) : List Char :=
  cs.dropWhile fun c => c == ' ' || c == '\t' || c == '\n' || c == '\r'

/-- The rest of a text behind a word that it starts with. -/
def dropWord? : List Char → List Char → Option (List Char)
  | [], cs => some cs
  | _ :: _, [] => none
  | w :: word, c :: cs => if w = c then dropWord? word cs else none

/-- A scalar that is a number, at the start of a text. -/
def scanNumber (negative : Bool) (cs : List Char) : Option (Node × List Char) :=
  (scanNumeral cs).map fun (l, rest) => (.scalar { number := number? negative l }, rest)

/-- A scalar without a bracket, at the start of a text. -/
def scanScalar (cs : List Char) : Option (Node × List Char) :=
  match cs with
  | '"' :: rest => (scanString rest).map fun (text, rest) => (.scalar { text }, rest)
  | 'n' :: rest =>
    (dropWord? ['u', 'l', 'l'] rest).map fun rest => (.scalar { isNull := some true }, rest)
  | 't' :: rest => (dropWord? ['r', 'u', 'e'] rest).map fun rest => (.scalar {}, rest)
  | 'f' :: rest => (dropWord? ['a', 'l', 's', 'e'] rest).map fun rest => (.scalar {}, rest)
  | '-' :: rest => scanNumber true rest
  | cs => scanNumber false cs

mutual

/-- The value at the start of a text. Each step down takes one unit of fuel. -/
def scanValue : Nat → List Char → Option (Node × List Char)
  | 0, _ => none
  | fuel + 1, cs =>
    match skipSpace cs with
    | '[' :: rest =>
      match skipSpace rest with
      | ']' :: rest => some (.list true [], rest)
      | rest => (scanItems fuel rest).map fun (items, rest) => (.list true items, rest)
    | '\x7b' :: rest =>
      match skipSpace rest with
      | '\x7d' :: rest => some (.map [], rest)
      | rest => (scanEntries fuel rest).map fun (entries, rest) => (.map entries, rest)
    | rest => scanScalar rest

/-- One or more items and the closing bracket. -/
def scanItems : Nat → List Char → Option (List Node × List Char)
  | 0, _ => none
  | fuel + 1, cs => do
    let (item, rest) ← scanValue fuel cs
    match skipSpace rest with
    | ',' :: rest => do
      let (items, rest) ← scanItems fuel rest
      return (item :: items, rest)
    | ']' :: rest => return ([item], rest)
    | _ => none

/-- One or more entries and the closing brace. -/
def scanEntries : Nat → List Char → Option (List (Node × Node) × List Char)
  | 0, _ => none
  | fuel + 1, cs =>
    match skipSpace cs with
    | '"' :: rest => do
      let (text, rest) ← scanString rest
      let key := Node.scalar { text }
      match skipSpace rest with
      | ':' :: rest => do
        let (value, rest) ← scanValue fuel rest
        match skipSpace rest with
        | ',' :: rest => do
          let (entries, rest) ← scanEntries fuel rest
          return ((key, value) :: entries, rest)
        | '\x7d' :: rest => return ([(key, value)], rest)
        | _ => none
      | _ => none
    | _ => none

end

/-- The document that a whole text is. Every step down consumes a character, so fuel for twice as
many steps as there are characters is enough. -/
def read? (source : String) : Option Document :=
  let cs := source.toList
  match scanValue (2 * cs.length + 1) cs with
  | some (root, rest) => if (skipSpace rest).isEmpty then some { root } else none
  | none => none

end GrowthGrammar.Json
