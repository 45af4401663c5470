import GrowthGrammar.Json.Number
import GrowthGrammar.Json.Quoted

/-!
# Writing JSON

A tree of JSON values and its two texts: `compact` without any space, and `pretty` with one value a
line, indented by two spaces a level. A number that is not finite is written as `null`.
-/

set_option autoImplicit false

namespace GrowthGrammar

/-- A JSON value to be written. -/
inductive Json where
  | number (value : Float)
  | string (text : String)
  | array (items : List Json)
  | object (members : List (String × Json))

namespace Json

/-- The spelling of a number. -/
def numeral (value : Float) : List Char :=
  if value.isFinite then numberLayout.write value else ['n', 'u', 'l', 'l']

mutual

/-- The value on one line, without spaces. -/
def compact : Json → List Char
  | .number value => numeral value
  | .string text => quote text
  | .array [] => ['[', ']']
  | .array (item :: items) => '[' :: (compact item ++ compactItems items ++ [']'])
  | .object [] => ['\x7b', '\x7d']
  | .object ((name, value) :: members) =>
    '\x7b' :: (quote name ++ ':' :: compact value ++ compactMembers members ++ ['\x7d'])

/-- Further items, each behind a comma. -/
def compactItems : List Json → List Char
  | [] => []
  | item :: items => ',' :: compact item ++ compactItems items

/-- Further members, each behind a comma. -/
def compactMembers : List (String × Json) → List Char
  | [] => []
  | (name, value) :: members =>
    ',' :: quote name ++ ':' :: compact value ++ compactMembers members

end

/-- A line break and the indentation of a level. -/
def newline (level : Nat) : List Char :=
  '\n' :: List.replicate (2 * level) ' '

mutual

/-- The value over several lines; its inside is indented below `level`. -/
def pretty (level : Nat) : Json → List Char
  | .number value => numeral value
  | .string text => quote text
  | .array [] => ['[', ']']
  | .array (item :: items) =>
    '[' :: (newline (level + 1) ++ pretty (level + 1) item ++ prettyItems (level + 1) items ++
      newline level ++ [']'])
  | .object [] => ['\x7b', '\x7d']
  | .object ((name, value) :: members) =>
    '\x7b' :: (newline (level + 1) ++ quote name ++ [':', ' '] ++ pretty (level + 1) value ++
      prettyMembers (level + 1) members ++ newline level ++ ['\x7d'])

/-- Further items, each on a new line. -/
def prettyItems (level : Nat) : List Json → List Char
  | [] => []
  | item :: items => ',' :: newline level ++ pretty level item ++ prettyItems level items

/-- Further members, each on a new line. -/
def prettyMembers (level : Nat) : List (String × Json) → List Char
  | [] => []
  | (name, value) :: members =>
    ',' :: newline level ++ quote name ++ [':', ' '] ++ pretty level value ++
      prettyMembers level members

end

end Json

end GrowthGrammar
