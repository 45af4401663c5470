/-!
# YAML sources

The characters of a YAML text, each in a `Cell` with its place. Every line break is a single cell,
and a cell with the character NUL, which no text may contain, marks the end; so a reader can always
look at the next character.
-/

set_option autoImplicit false

namespace GrowthGrammar.Yaml

/-- A character and its place. Lines and columns count from zero; the index is the number of bytes
that the text before takes in UTF-8. -/
structure Cell where
  char : Char
  line : Nat
  column : Nat
  index : Nat
  deriving Repr, DecidableEq

/-- The character at the end of every source. -/
def endMark : Char := '\x00'

/-- A mark that may stand before the first token of a line. -/
def byteOrderMark : Char := '\ufeff'

/-- The bytes of ASCII characters. -/
def asciiBytes (cs : List Char) : List UInt8 :=
  cs.map Char.toUInt8

/-- Whether a text may contain a character: printable ones, tabs and line breaks. -/
def isAllowed (c : Char) : Bool :=
  let n := c.toNat
  n == 0x09 || n == 0x0A || n == 0x0D || (0x20 ≤ n && n ≤ 0x7E) || n == 0x85 ||
    (0xA0 ≤ n && n ≤ 0xD7FF) || (0xE000 ≤ n && n ≤ 0xFFFD) || 0x10000 ≤ n

/-- Whether a cell breaks the line. -/
def isBreak (c : Char) : Bool :=
  c == '\n' || c == '\u2028' || c == '\u2029'

/-- Spaces and tabs. -/
def isBlank (c : Char) : Bool :=
  c == ' ' || c == '\t'

/-- Line breaks and the end of the text. -/
def isBreakOrEnd (c : Char) : Bool :=
  isBreak c || c == endMark

/-- Spaces, tabs, line breaks and the end of the text. -/
def isGap (c : Char) : Bool :=
  isBlank c || isBreakOrEnd c

/-- Places the characters of a text. A carriage return, alone or before a line feed, and U+0085 are
line breaks like the line feed. -/
def place (line column index : Nat) : List Char → List Cell
  | [] => [⟨endMark, line, column, index⟩]
  | '\r' :: '\n' :: rest => ⟨'\n', line, column, index⟩ :: place (line + 1) 0 (index + 2) rest
  | c :: rest =>
    if c == '\r' || c == '\u0085' then
      ⟨'\n', line, column, index⟩ :: place (line + 1) 0 (index + c.utf8Size) rest
    else if isBreak c then ⟨c, line, column, index⟩ :: place (line + 1) 0 (index + c.utf8Size) rest
    else ⟨c, line, column, index⟩ :: place line (column + 1) (index + c.utf8Size) rest

/-- The cells of a text, if it contains no other character than it may. -/
def cells? (text : String) : Option (List Cell) :=
  let cs := text.toList
  if cs.all isAllowed then some (place 0 0 0 cs) else none

/-- The next character. -/
def peek (cells : List Cell) : Char :=
  match cells with
  | cell :: _ => cell.char
  | [] => endMark

/-- The character `n` places ahead. -/
def peekAt (cells : List Cell) (n : Nat) : Char :=
  peek (cells.drop n)

/-- The column of the next character. -/
def columnOf (cells : List Cell) : Nat :=
  match cells with
  | cell :: _ => cell.column
  | [] => 0

/-- Whether the source continues with the given characters. -/
def startsWith (cells : List Cell) (text : List Char) : Bool :=
  (cells.take text.length).map Cell.char == text

/-- Whether a line starts here with a mark between documents. -/
def atDocumentMark (cells : List Cell) : Bool :=
  columnOf cells == 0 &&
    (startsWith cells ['-', '-', '-'] || startsWith cells ['.', '.', '.']) &&
    isGap (peekAt cells 3)

/-- Splits the source after the characters that satisfy a test. -/
def spanCells (test : Char → Bool) (cells : List Cell) : List Char × List Cell :=
  ((cells.takeWhile fun cell => test cell.char).map Cell.char,
    cells.dropWhile fun cell => test cell.char)

/-- The source behind the blanks and the comment that may end a line, if nothing else ends it. -/
def skipLineEnd? (cells : List Cell) : Option (List Cell) :=
  let rest := (spanCells isBlank cells).2
  let rest := if peek rest == '#' then (spanCells (fun c => !isBreakOrEnd c) rest).2 else rest
  match rest with
  | cell :: after =>
    if isBreak cell.char then some after
    else if cell.char == endMark then some rest
    else none
  | [] => some []

end GrowthGrammar.Yaml
