/-!
# JSON strings

Strings stand in double quotes. A quote, a backslash and control characters are escaped, all else is
written as it is. When a string is read, an escape may also name one half of a pair of 16-bit units;
`assemble` joins the halves. A half that stands alone names no character, so such a string has no
text, although its spelling is well formed.
-/

set_option autoImplicit false

namespace GrowthGrammar.Json

/-- The digit of a value below sixteen. -/
def hexDigit (n : Nat) : Char :=
  if n < 10 then Char.ofNat (48 + n) else Char.ofNat (87 + n)

/-- The value of a hexadecimal digit. -/
def hexValue? (c : Char) : Option Nat :=
  if '0' ≤ c ∧ c ≤ '9' then some (c.toNat - 48)
  else if 'a' ≤ c ∧ c ≤ 'f' then some (c.toNat - 87)
  else if 'A' ≤ c ∧ c ≤ 'F' then some (c.toNat - 55)
  else none

/-- The spelling of a character inside a string. -/
def escapeChar (c : Char) : List Char :=
  if c = '"' then ['\\', '"']
  else if c = '\\' then ['\\', '\\']
  else if c = '\n' then ['\\', 'n']
  else if c = '\r' then ['\\', 'r']
  else if c = '\t' then ['\\', 't']
  else if c = '\x08' then ['\\', 'b']
  else if c = '\x0c' then ['\\', 'f']
  else if c.toNat < 0x20 then
    ['\\', 'u', '0', '0', hexDigit (c.toNat / 16), hexDigit (c.toNat % 16)]
  else [c]

/-- The spelling of a string, quotes included. -/
def quote (text : String) : List Char :=
  '"' :: (text.toList.flatMap escapeChar ++ ['"'])

/-- A piece of a spelling: a character, or the 16-bit unit of a numeric escape. -/
inductive Piece where
  | char (c : Char)
  | unit (value : Nat)
  deriving Repr, DecidableEq

/-- The characters that pieces spell, if every half of a pair has its other half. -/
def assemble : List Piece → Option (List Char)
  | [] => some []
  | .char c :: rest => (assemble rest).map (c :: ·)
  | .unit value :: rest =>
    if value < 0xD800 ∨ 0xDFFF < value then (assemble rest).map (Char.ofNat value :: ·)
    else
      match rest with
      | .unit low :: rest =>
        if value < 0xDC00 ∧ 0xDC00 ≤ low ∧ low ≤ 0xDFFF then
          (assemble rest).map
            (Char.ofNat (0x10000 + (value - 0xD800) * 0x400 + (low - 0xDC00)) :: ·)
        else none
      | _ => none

/-- The character of an escape with one letter. -/
def simpleEscape? : Char → Option Char
  | '"' => some '"'
  | '\\' => some '\\'
  | '/' => some '/'
  | 'b' => some '\x08'
  | 'f' => some '\x0c'
  | 'n' => some '\n'
  | 'r' => some '\r'
  | 't' => some '\t'
  | _ => none

/-- The value of four hexadecimal digits. -/
def hexUnit? (a b c d : Char) : Option Nat := do
  let a ← hexValue? a
  let b ← hexValue? b
  let c ← hexValue? c
  let d ← hexValue? d
  return ((a * 16 + b) * 16 + c) * 16 + d

/-- The pieces of a string up to its closing quote, and the text after it. The text starts behind the
opening quote. A raw control character or an unknown escape makes the spelling ill formed. -/
def scanPieces : List Char → Option (List Piece × List Char)
  | [] => none
  | '"' :: rest => some ([], rest)
  | '\\' :: 'u' :: a :: b :: c :: d :: rest => do
    let value ← hexUnit? a b c d
    let (pieces, rest) ← scanPieces rest
    return (.unit value :: pieces, rest)
  | '\\' :: c :: rest => do
    let escaped ← simpleEscape? c
    let (pieces, rest) ← scanPieces rest
    return (.char escaped :: pieces, rest)
  | c :: rest => do
    if c = '\\' ∨ c.toNat < 0x20 then none
    else
      let (pieces, rest) ← scanPieces rest
      return (.char c :: pieces, rest)

/-- The text of a string, none if a half stands alone, and what follows the string. The text starts
behind the opening quote. -/
def scanString (cs : List Char) : Option (Option String × List Char) :=
  (scanPieces cs).map fun (pieces, rest) => ((assemble pieces).map String.ofList, rest)

end GrowthGrammar.Json
