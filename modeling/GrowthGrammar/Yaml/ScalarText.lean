import GrowthGrammar.Yaml.Source

/-!
# The texts of YAML scalars

A scalar is written plain, in single or double quotes, or as a block of lines. Line breaks inside
plain and quoted scalars are folded: one break is a space, and of several the first is dropped. The
functions here start at a scalar and give its text and the source behind it, or none if it is ill
formed.
-/

set_option autoImplicit false

namespace GrowthGrammar.Yaml

/-- Blanks and line breaks inside a scalar. The blanks count only if there is no break. -/
structure Gap where
  blanks : List Char := []
  breaks : List Char := []

/-- Reads blanks and breaks. A tab that stands for indentation, left of the column `limit` on a new
line, is ill formed. -/
def gap? (limit : Nat) (broken : Bool) : List Cell → Option (Gap × List Cell)
  | [] => some ({}, [])
  | cell :: rest =>
    if isBlank cell.char then
      if broken && cell.char == '\t' && cell.column < limit then none
      else
        (gap? limit broken rest).map fun (gap, rest) =>
          (if broken then gap else { gap with blanks := cell.char :: gap.blanks }, rest)
    else if isBreak cell.char then
      (gap? limit true rest).map fun (gap, rest) =>
        ({ gap with breaks := cell.char :: gap.breaks }, rest)
    else some ({}, cell :: rest)

/-- What a gap contributes to the text of a scalar. -/
def Gap.fold (gap : Gap) : List Char :=
  match gap.breaks with
  | [] => gap.blanks
  | ['\n'] => [' ']
  | '\n' :: more => more
  | breaks => breaks

/-- Brackets and the comma, which end a plain scalar inside a flow collection. -/
def isFlowMark (c : Char) : Bool :=
  c == ',' || c == '[' || c == ']' || c == '\x7b' || c == '\x7d'

/-- The characters of a plain scalar up to a gap or a mark that ends it. -/
def plainRun? (inFlow : Bool) : List Cell → Option (List Char × List Cell)
  | [] => some ([], [])
  | cell :: rest =>
    let c := cell.char
    if isGap c then some ([], cell :: rest)
    else if inFlow && c == ':' && (isFlowMark (peek rest) || peek rest == '?') then none
    else if (c == ':' && isGap (peek rest)) || (inFlow && isFlowMark c) then
      some ([], cell :: rest)
    else (plainRun? inFlow rest).map fun (run, rest) => (c :: run, rest)

/-- A plain scalar. `before` is the gap read but not yet used; the result also says whether the scalar
was followed by a line break. Lines that continue the scalar are indented by `indent` or more. -/
def plain? (inFlow : Bool) (indent : Int) : Nat → Gap → List Cell →
    Option (List Char × Bool × List Cell)
  | 0, _, _ => none
  | fuel + 1, before, cells =>
    if atDocumentMark cells || peek cells == '#' then some ([], !before.breaks.isEmpty, cells)
    else do
      let (run, rest) ← plainRun? inFlow cells
      let text := if run.isEmpty then [] else before.fold ++ run
      let pending := if run.isEmpty then before else {}
      if !(isBlank (peek rest) || isBreak (peek rest)) then
        return (text, !pending.breaks.isEmpty, rest)
      else
        let (gap, rest) ← gap? indent.toNat (!pending.breaks.isEmpty) rest
        let gap : Gap := ⟨pending.blanks ++ gap.blanks, pending.breaks ++ gap.breaks⟩
        if !inFlow && (columnOf rest : Int) < indent then
          return (text, !gap.breaks.isEmpty, rest)
        else
          let (more, broken, rest) ← plain? inFlow indent fuel gap rest
          return (text ++ more, broken, rest)

/-- The value of a hexadecimal digit. -/
def hexDigitValue? (c : Char) : Option Nat :=
  if '0' ≤ c ∧ c ≤ '9' then some (c.toNat - 48)
  else if 'a' ≤ c ∧ c ≤ 'f' then some (c.toNat - 87)
  else if 'A' ≤ c ∧ c ≤ 'F' then some (c.toNat - 55)
  else none

/-- The value of hexadecimal digits. -/
def hexNumber? (value : Nat) : List Char → Option Nat
  | [] => some value
  | c :: rest => do
    let digit ← hexDigitValue? c
    hexNumber? (16 * value + digit) rest

/-- The character that a number names, if it names one. -/
def charOfNat? (n : Nat) : Option Char :=
  if n.isValidChar then some (Char.ofNat n) else none

/-- The character of an escape with one letter. -/
def letterEscape? : Char → Option Char
  | '0' => some '\x00'
  | 'a' => some '\x07'
  | 'b' => some '\x08'
  | 't' => some '\t'
  | '\t' => some '\t'
  | 'n' => some '\n'
  | 'v' => some '\x0b'
  | 'f' => some '\x0c'
  | 'r' => some '\r'
  | 'e' => some '\x1b'
  | ' ' => some ' '
  | '"' => some '"'
  | '/' => some '/'
  | '\\' => some '\\'
  | 'N' => some '\u0085'
  | '_' => some '\u00a0'
  | 'L' => some '\u2028'
  | 'P' => some '\u2029'
  | _ => none

/-- The number of hexadecimal digits behind an escape letter. -/
def hexEscapeLength? : Char → Option Nat
  | 'x' => some 2
  | 'u' => some 4
  | 'U' => some 8
  | _ => none

/-- The character of an escape, and the number of cells it takes behind the backslash. -/
def escape? (cells : List Cell) : Option (Char × Nat) :=
  match hexEscapeLength? (peek cells) with
  | some length => do
    let digits := ((cells.drop 1).take length).map Cell.char
    let value ← if digits.length = length then hexNumber? 0 digits else none
    let c ← charOfNat? value
    return (c, length + 1)
  | none => (letterEscape? (peek cells)).map fun c => (c, 1)

/-- The characters of a quoted scalar up to a gap, an escaped line break or the closing quote; the
flag tells that it was an escaped break, which is then behind the cells. `skip` cells have been used
up by the escape before. -/
def quotedRun? (quote : Char) : Nat → List Cell → Option (List Char × Bool × List Cell)
  | _, [] => some ([], false, [])
  | skip + 1, _ :: rest => quotedRun? quote skip rest
  | 0, cell :: rest =>
    let c := cell.char
    if isGap c then some ([], false, cell :: rest)
    else if c == quote then
      if quote == '\'' && peek rest == '\'' then
        (quotedRun? quote 1 rest).map fun (run, escaped, rest) => ('\'' :: run, escaped, rest)
      else some ([], false, cell :: rest)
    else if quote == '"' && c == '\\' then
      if isBreak (peek rest) then some ([], true, rest.drop 1)
      else
        match escape? rest with
        | none => none
        | some (c, length) =>
          (quotedRun? quote length rest).map fun (run, escaped, rest) => (c :: run, escaped, rest)
    else (quotedRun? quote 0 rest).map fun (run, escaped, rest) => (c :: run, escaped, rest)

/-- A quoted scalar, from behind its opening quote. An escaped line break is dropped, together with
the blanks around it. -/
def quoted? (quote : Char) : Nat → List Cell → Option (List Char × List Cell)
  | 0, _ => none
  | fuel + 1, cells =>
    if atDocumentMark cells || peek cells == endMark then none
    else do
      let (run, escaped, rest) ← quotedRun? quote 0 cells
      if peek rest == quote && !escaped then return (run, rest.drop 1)
      else if escaped && peek rest == quote then return (run, rest.drop 1)
      else
        let (gap, rest) ← gap? 0 escaped rest
        let between := if escaped then gap.breaks else gap.fold
        let (more, rest) ← quoted? quote fuel rest
        return (run ++ between ++ more, rest)

/-- What becomes of the line breaks at the end of a block. -/
inductive Chomping where
  | strip
  | clip
  | keep
  deriving Repr, DecidableEq

/-- The chomping that a sign asks for. -/
def chomping? : Char → Option Chomping
  | '+' => some .keep
  | '-' => some .strip
  | _ => none

/-- The indentation that a digit asks for; it cannot be zero. -/
def indentDigit? (c : Char) : Option Nat :=
  if c.isDigit && c != '0' then some (c.toNat - 48) else none

/-- The header of a block scalar, from behind its mark: a chomping sign and an indentation digit in
either order. -/
def blockHeader? (cells : List Cell) : Option (Chomping × Option Nat × List Cell) :=
  match chomping? (peek cells) with
  | some chomping =>
    let rest := cells.drop 1
    if (peek rest).isDigit then
      (indentDigit? (peek rest)).map fun n => (chomping, some n, rest.drop 1)
    else some (chomping, none, rest)
  | none =>
    if (peek cells).isDigit then
      (indentDigit? (peek cells)).map fun n =>
        let rest := cells.drop 1
        match chomping? (peek rest) with
        | some chomping => (chomping, some n, rest.drop 1)
        | none => (.clip, some n, rest)
    else some (.clip, none, cells)

/-- The empty lines before the next line of a block: their breaks, the greatest column that
indentation reached, and the source at the next line. While `indent` is not known every space is
indentation; a tab in its place is ill formed. -/
def emptyLines? (indent : Option Nat) (reached : Nat) : List Cell →
    Option (List Char × Nat × List Cell)
  | [] => some ([], reached, [])
  | cell :: rest =>
    let inIndent := match indent with | some n => decide (cell.column < n) | none => true
    if inIndent && cell.char == ' ' then emptyLines? indent reached rest
    else
      let reached := max reached cell.column
      if inIndent && cell.char == '\t' then none
      else if isBreak cell.char then
        (emptyLines? indent reached rest).map fun (breaks, reached, rest) =>
          (cell.char :: breaks, reached, rest)
      else some ([], reached, cell :: rest)

/-- The lines of a block. `ending` is the break of the line before, `empties` the breaks of the empty
lines since, and `indented` says whether the line before started with a blank. In a folded block one
break between two lines that do not start with a blank is a space. -/
def blockLines? (literal : Bool) (indent : Nat) : Nat → (ending empties : List Char) →
    (indented : Bool) → List Cell → Option (List Char × List Char × List Char × List Cell)
  | 0, _, _, _, _ => none
  | fuel + 1, ending, empties, indented, cells =>
    if columnOf cells == indent && peek cells != endMark then do
      let blank := isBlank (peek cells)
      let lead :=
        if !literal && ending == ['\n'] && !indented && !blank then
          (if empties.isEmpty then [' '] else empties)
        else ending ++ empties
      let (line, rest) := spanCells (fun c => !isBreakOrEnd c) cells
      let (ending, rest) :=
        match rest with
        | cell :: after => if isBreak cell.char then ([cell.char], after) else ([], rest)
        | [] => ([], [])
      let (empties, _, rest) ← emptyLines? (some indent) 0 rest
      let (more, ending, empties, rest) ←
        blockLines? literal indent fuel ending empties blank rest
      return (lead ++ line ++ more, ending, empties, rest)
    else some ([], ending, empties, cells)

/-- A block scalar, from behind its mark, inside a block indented by `parent`. -/
def block? (literal : Bool) (parent : Int) (cells : List Cell) :
    Option (List Char × List Cell) := do
  let (chomping, digit, rest) ← blockHeader? cells
  let rest ← skipLineEnd? rest
  let given := digit.map fun n => if 0 ≤ parent then parent.toNat + n else n
  let (empties, reached, rest) ← emptyLines? given 0 rest
  let indent := given.getD (max (max reached (parent + 1).toNat) 1)
  let (text, ending, empties, rest) ←
    blockLines? literal indent (rest.length + 1) [] empties false rest
  let tail :=
    match chomping with
    | .strip => []
    | .clip => ending
    | .keep => ending ++ empties
  return (text ++ tail, rest)

end GrowthGrammar.Yaml
