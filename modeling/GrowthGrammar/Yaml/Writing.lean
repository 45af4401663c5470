import GrowthGrammar.Decimal.Layout
import GrowthGrammar.Word
import GrowthGrammar.Yaml.Reading

/-!
# Writing YAML

A text is written plain if it then reads back as the same text; otherwise it is put in single quotes,
in double quotes if it contains characters that only an escape can spell, or as a block of lines if it
has line breaks. Numbers are written with their shortest digits.
-/

set_option autoImplicit false

namespace GrowthGrammar.Yaml

/-- How YAML texts write numbers. -/
def numberLayout : Decimal.Layout where
  isPositional point := -4 ≤ point && point ≤ 16
  wholeEnding := ['.', '0']
  plusSign := []
  tie := .even
  infinityName := ['.', 'i', 'n', 'f']
  nanName := ['.', 'n', 'a', 'n']

/-- Whether all characters are digits of a base, and there is one. -/
def isDigits (base : Nat) (cs : List Char) : Bool :=
  !cs.isEmpty && cs.all fun c => (hexDigitValue? c).any fun digit => decide (digit < base)

/-- The base and the digits of a whole number with a base mark. -/
def basedDigits? : List Char → Option (Nat × List Char)
  | '0' :: 'x' :: digits => some (16, digits)
  | '0' :: 'o' :: digits => some (8, digits)
  | '0' :: 'b' :: digits => some (2, digits)
  | _ => none

/-- The value of digits of a base. -/
def valueIn (base : Nat) (digits : List Char) : Nat :=
  digits.foldl (fun n c => base * n + (hexDigitValue? c).getD 0) 0

/-- Whether a text reads as a whole number with a base mark, of at most 128 bits. -/
def isBasedNumber (text : List Char) : Bool :=
  let (unsigned, bound) :=
    match text with
    | '-' :: rest => (rest, Nat.pow 2 127 + 1)
    | '+' :: rest => (rest, Nat.pow 2 128)
    | _ => (text, Nat.pow 2 128)
  match basedDigits? unsigned with
  | some (base, digits) => isDigits base digits && decide (valueIn base digits < bound)
  | none => false

/-- Whether a text is digits behind a needless zero, which readers take for different things. -/
def isPaddedDigits (text : List Char) : Bool :=
  let unsigned :=
    match text with
    | '-' :: rest => rest
    | '+' :: rest => rest
    | _ => text
  decide (1 < unsigned.length) && unsigned.head? == some '0' && unsigned.all Char.isDigit

/-- The words for truth values. -/
def isTruthWord (text : List Char) : Bool :=
  ["true", "True", "TRUE", "false", "False", "FALSE"].contains (String.ofList text)

/-- Whether a plain scalar of this text would read as something other than a text. -/
def isAmbiguous (text : List Char) : Bool :=
  text.isEmpty || isNullWord text || isTruthWord text || isBasedNumber text ||
    isPaddedDigits text || (number? text).isSome

/-- Whether a character can stand in a text without an escape. -/
def isPrintable (c : Char) : Bool :=
  let n := c.toNat
  n == 0x0A || (0x20 ≤ n && n ≤ 0x7E) || (0xA0 ≤ n && n ≤ 0xD7FF) ||
    (0xE000 ≤ n && n ≤ 0xFFFD && n != 0xFEFF) || 0x10000 ≤ n

/-- Whether a character breaks the line in a text to be written. -/
def breaksLine (c : Char) : Bool :=
  isBreak c || c == '\r' || c == '\u0085'

/-- The characters of a text, each with the one before and the one after it. -/
def withNeighbours (before : Option Char) : List Char → List (Option Char × Char × Option Char)
  | [] => []
  | c :: rest => (before, c, rest.head?) :: withNeighbours (some c) rest

/-- Whether a neighbour ends a word: a blank, a line break, or the edge of the text. -/
def endsWord (neighbour : Option Char) : Bool :=
  match neighbour with
  | some c => isBlank c || breaksLine c
  | none => true

/-- Whether a character, between its neighbours, would be taken for a mark. -/
def isMark (neighbours : Option Char × Char × Option Char) : Bool :=
  let (before, c, after) := neighbours
  if before.isNone then
    ['#', ',', '[', ']', '\x7b', '\x7d', '&', '*', '!', '|', '>', '\'', '"', '%', '@',
      '\x60'].contains c ||
      (['?', ':', '-'].contains c && endsWord after)
  else (c == ':' && endsWord after) || (c == '#' && endsWord before)

/-- Whether one of two characters in a row satisfies one test and the next the other. -/
def hasPair (first second : Char → Bool) : List Char → Bool
  | c :: d :: rest => (first c && second d) || hasPair first second (d :: rest)
  | _ => false

/-- Whether a text holds a character that only an escape can spell, or a space before a line break. -/
def needsEscapes (text : List Char) : Bool :=
  text.any (fun c => !isPrintable c) || hasPair (· == ' ') breaksLine text

/-- Whether a text can be written plain in a block. -/
def allowsPlain (text : List Char) : Bool :=
  !text.isEmpty && !needsEscapes text && !text.any breaksLine &&
    text.head? != some ' ' && text.getLast? != some ' ' &&
    !(text.take 3 == ['-', '-', '-'] || text.take 3 == ['.', '.', '.']) &&
    !(withNeighbours none text).any isMark

/-- Lines, each that is not empty indented by `indent`; `fresh` says whether a line begins here. -/
def indentLines (indent : Nat) (fresh : Bool) : List Char → List Char
  | [] => []
  | c :: rest =>
    if breaksLine c then c :: indentLines indent true rest
    else if fresh then List.replicate indent ' ' ++ c :: indentLines indent false rest
    else c :: indentLines indent false rest

/-- A text in single quotes, where a quote is written twice. -/
def singleQuoted (indent : Nat) (text : List Char) : List Char :=
  let doubled := text.flatMap fun c => if c == '\'' then ['\'', '\''] else [c]
  '\'' :: indentLines indent false (doubled ++ ['\''])

/-- The last `count` hexadecimal digits of a number, in capitals. -/
def hexDigits (count n : Nat) : List Char :=
  (List.range count).reverse.map fun place =>
    let digit := n / Nat.pow 16 place % 16
    if digit < 10 then Char.ofNat (48 + digit) else Char.ofNat (55 + digit)

/-- The spelling of a character in double quotes. -/
def escape (c : Char) : List Char :=
  if isPrintable c && !breaksLine c && c != '"' && c != '\\' then [c]
  else
    let n := c.toNat
    let letters : List (Nat × Char) :=
      [(0x00, '0'), (0x07, 'a'), (0x08, 'b'), (0x09, 't'), (0x0A, 'n'), (0x0B, 'v'), (0x0C, 'f'),
       (0x0D, 'r'), (0x1B, 'e'), (0x22, '"'), (0x5C, '\\'), (0x85, 'N'), (0xA0, '_'), (0x2028, 'L'),
       (0x2029, 'P')]
    match letters.lookup n with
    | some letter => ['\\', letter]
    | none =>
      if n ≤ 0xFF then '\\' :: 'x' :: hexDigits 2 n
      else if n ≤ 0xFFFF then '\\' :: 'u' :: hexDigits 4 n
      else '\\' :: 'U' :: hexDigits 8 n

/-- A text in double quotes. -/
def doubleQuoted (text : List Char) : List Char :=
  '"' :: (text.flatMap escape ++ ['"'])

/-- A text as a block of lines, with the hints that keep its first blanks and last line breaks. -/
def literalBlock (indent : Nat) (text : List Char) : List Char :=
  let startsBlank := (text.head?).any fun c => c == ' ' || breaksLine c
  let indentHint := if startsBlank then ['2'] else []
  let chompHint :=
    match text.reverse with
    | [] => ['-']
    | last :: others =>
      if !breaksLine last then ['-']
      else
        match others with
        | [] => ['+']
        | next :: _ => if breaksLine next then ['+'] else []
  '|' :: (indentHint ++ chompHint ++ '\n' :: indentLines indent true text)

/-- The indentation of the lines of a text that is the value in an entry of a list. -/
def valueIndent : Nat := 4

/-- A text as a value in an entry of a list. -/
def textValue (text : List Char) : List Char :=
  let quoted := if needsEscapes text || hasPair breaksLine (· == ' ') text then doubleQuoted text
    else singleQuoted valueIndent text
  if text.contains '\n' then
    if needsEscapes text || text.getLast? == some ' ' then doubleQuoted text
    else literalBlock valueIndent text
  else if isAmbiguous text || !allowsPlain text then quoted
  else text

/-- A line, ended unless it ends already. -/
def endLine (line : List Char) : List Char :=
  if line.getLast?.any breaksLine then line else line ++ ['\n']

/-- A letter as an entry of a list. -/
def letterEntry (letter : Letter) : List Char :=
  let symbol := endLine ("- symbol: ".toList ++ textValue letter.symbol.toList)
  let params :=
    if letter.params.isEmpty then []
    else
      "  params:\n".toList ++
        letter.params.flatMap fun x => "  - ".toList ++ numberLayout.write x ++ ['\n']
  symbol ++ params

/-- A word as a list of letters. -/
def writeWord (word : Word) : String :=
  if word.isEmpty then "[]\n" else String.ofList (word.flatMap letterEntry)

end GrowthGrammar.Yaml
