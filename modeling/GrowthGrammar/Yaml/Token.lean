import GrowthGrammar.Yaml.ScalarText

/-!
# YAML tokens

A YAML text is cut into tokens. Indentation is made explicit: a block sequence or mapping opens with
a token when a line is indented further and closes with one when the indentation ends. A mapping key
is recognised only by the colon behind it, so wherever a key may begin the place is remembered as a
`Candidate`, and the tokens of the key are put there later.
-/

set_option autoImplicit false

namespace GrowthGrammar.Yaml

/-- How a scalar was written. -/
inductive Style where
  | plain
  | quoted
  | literal
  | folded
  deriving Repr, DecidableEq

/-- A token of a YAML text. -/
inductive Token where
  /-- A version directive with its two numbers. -/
  | version (major minor : Nat)
  /-- A directive that lets a handle stand for the start of tags. -/
  | tagDirective (handle : List Char) (start : List UInt8)
  | documentStart
  | documentEnd
  | blockSequenceStart
  | blockMappingStart
  | blockEnd
  | flowSequenceStart
  | flowSequenceEnd
  | flowMappingStart
  | flowMappingEnd
  | blockEntry
  | flowEntry
  | key
  | value
  | reference (name : List Char)
  | anchor (name : List Char)
  | tag (handle : List Char) (suffix : List UInt8)
  | scalar (text : List Char) (style : Style)
  deriving Repr, DecidableEq

/-- A place where a key may have begun. -/
structure Candidate where
  /-- Whether the line is wrong unless a key begins here. -/
  required : Bool
  /-- The number of tokens before the place. -/
  position : Nat
  line : Nat
  column : Nat
  index : Nat

/-- The state of cutting. -/
structure Cutter where
  rest : List Cell
  tokens : Array Token := #[]
  /-- The indentation of the innermost block, `-1` outside of all blocks. -/
  indent : Int := -1
  outerIndents : List Int := []
  /-- Whether a key may begin at the next token. -/
  keyAllowed : Bool := true
  /-- The candidate of every flow collection around the place, innermost first, and last that of the
  block. -/
  candidates : List (Option Candidate) := [none]

namespace Cutter

/-- The number of flow collections around the place. -/
def flowLevel (s : Cutter) : Nat :=
  s.candidates.length - 1

/-- Whether the place is inside a flow collection. -/
def inFlow (s : Cutter) : Bool :=
  0 < s.flowLevel

/-- The column of the next character. -/
def column (s : Cutter) : Nat :=
  columnOf s.rest

/-- Adds a token and moves on. -/
def push (s : Cutter) (token : Token) (rest : List Cell) : Cutter :=
  { s with tokens := s.tokens.push token, rest }

/-- Gives up the candidate of the innermost level, which must not be required. -/
def dropCandidate? (s : Cutter) : Option Cutter :=
  match s.candidates with
  | some candidate :: outer =>
    if candidate.required then none else some { s with candidates := none :: outer }
  | _ => some s

/-- Remembers that a key may begin here. -/
def saveCandidate? (s : Cutter) : Option Cutter :=
  if s.keyAllowed then do
    let s ← s.dropCandidate?
    match s.rest with
    | cell :: _ =>
      let candidate : Candidate :=
        { required := !s.inFlow && s.indent == (cell.column : Int)
          position := s.tokens.size
          line := cell.line
          column := cell.column
          index := cell.index }
      return { s with candidates := some candidate :: s.candidates.tail }
    | [] => return s
  else some s

/-- Gives up the candidates that are too far away: a key stands on one line and has at most 1024
bytes. -/
def dropStale? (s : Cutter) : Option Cutter :=
  match s.rest with
  | [] => some s
  | cell :: _ => do
    let candidates ← s.candidates.mapM fun
      | none => some none
      | some candidate =>
        if candidate.line < cell.line || candidate.index + 1024 < cell.index then
          if candidate.required then none else some none
        else some (some candidate)
    return { s with candidates }

/-- Opens a block at a column if it is indented further than the innermost one. The opening token
stands at `position`, or behind the tokens so far. -/
def roll (s : Cutter) (column : Nat) (position : Option Nat) (token : Token) : Cutter :=
  if !s.inFlow && s.indent < (column : Int) then
    { s with
      indent := column
      outerIndents := s.indent :: s.outerIndents
      tokens := s.tokens.insertIdxIfInBounds (position.getD s.tokens.size) token }
  else s

/-- Closes the blocks that are indented further than a column. -/
def unrollTo (column : Int) (indent : Int) (outer : List Int) (tokens : Array Token) :
    Int × List Int × Array Token :=
  match outer with
  | [] => (indent, [], tokens)
  | next :: outer' =>
    if column < indent then unrollTo column next outer' (tokens.push .blockEnd)
    else (indent, outer, tokens)

/-- Closes the blocks that end before a column; inside flow collections indentation has no
meaning. -/
def unroll (s : Cutter) (column : Int) : Cutter :=
  if s.inFlow then s
  else
    let (indent, outerIndents, tokens) := unrollTo column s.indent s.outerIndents s.tokens
    { s with indent, outerIndents, tokens }

/-- Passes over spaces, comments and line breaks. Tabs are passed over where no indentation can
stand, and a byte order mark at the start of a line, where it takes a column. A line break in a block
lets a key begin. -/
def skipGaps (inFlow : Bool) : (keyAllowed inComment : Bool) → List Cell → Bool × List Cell
  | keyAllowed, _, [] => (keyAllowed, [])
  | keyAllowed, inComment, cell :: rest =>
    let c := cell.char
    if isBreak c then skipGaps inFlow (keyAllowed || !inFlow) false rest
    else if c == endMark then (keyAllowed, cell :: rest)
    else if inComment || c == '#' then skipGaps inFlow keyAllowed true rest
    else if c == byteOrderMark && cell.column == 0 then skipGaps inFlow keyAllowed false rest
    else if c == ' ' || (c == '\t' && (inFlow || !keyAllowed)) then
      skipGaps inFlow keyAllowed false rest
    else (keyAllowed, cell :: rest)

/-- Moves to the next token. -/
def toToken (s : Cutter) : Cutter :=
  let (keyAllowed, rest) := skipGaps s.inFlow s.keyAllowed false s.rest
  { s with keyAllowed, rest }

/-- Characters of names: ASCII letters, digits, the underscore and the hyphen. -/
def isNameChar (c : Char) : Bool :=
  c.isAlphanum || c == '_' || c == '-'

/-- One of the numbers of a version, of at most nine digits. -/
def versionNumber? (cells : List Cell) : Option (Nat × List Cell) :=
  let (digits, rest) := spanCells Char.isDigit cells
  if digits.isEmpty || 9 < digits.length then none
  else some (digits.foldl (fun n c => 10 * n + (c.toNat - 48)) 0, rest)

/-- The characters that a tag may contain. Brackets and commas only stand in a tag in angle
brackets. -/
def isTagChar (verbatim : Bool) (c : Char) : Bool :=
  isNameChar c ||
    [';', '/', '?', ':', '@', '&', '=', '+', '$', '.', '!', '~', '*', '\'', '(', ')'].contains c ||
    (verbatim && [',', '[', ']'].contains c)

/-- The byte that an escape of the form `%41` names. -/
def tagEscape? (cells : List Cell) : Option (UInt8 × List Cell) :=
  match cells with
  | percent :: high :: low :: rest =>
    if percent.char == '%' then
      (hexNumber? 0 [high.char, low.char]).map fun n => (n.toUInt8, rest)
    else none
  | _ => none

/-- How many bytes follow the first byte of a character in UTF-8. -/
def bytesBehind? (first : UInt8) : Option Nat :=
  if first < 0x80 then some 0
  else if first >>> 5 = 0x6 then some 1
  else if first >>> 4 = 0xE then some 2
  else if first >>> 3 = 0x1E then some 3
  else none

/-- The bytes of a character after its first, each written as an escape. -/
def tagEscapeTail? : Nat → List Cell → Option (List UInt8 × List Cell)
  | 0, cells => some ([], cells)
  | count + 1, cells => do
    let (byte, rest) ← tagEscape? cells
    if byte >>> 6 = 0x2 then
      let (bytes, rest) ← tagEscapeTail? count rest
      return (byte :: bytes, rest)
    else none

/-- A character of a tag that is written as the escaped bytes of its UTF-8 form. -/
def tagEscapedChar? (cells : List Cell) : Option (List UInt8 × List Cell) := do
  let (first, rest) ← tagEscape? cells
  let count ← bytesBehind? first
  let (bytes, rest) ← tagEscapeTail? count rest
  return (first :: bytes, rest)

/-- The bytes of a tag. -/
def tagText? (verbatim : Bool) : Nat → List Cell → Option (List UInt8 × List Cell)
  | 0, _ => none
  | fuel + 1, cells =>
    if peek cells == '%' then do
      let (bytes, rest) ← tagEscapedChar? cells
      let (more, rest) ← tagText? verbatim fuel rest
      return (bytes ++ more, rest)
    else
      match cells with
      | cell :: rest =>
        if isTagChar verbatim cell.char then
          (tagText? verbatim fuel rest).map fun (more, rest) => (cell.char.toUInt8 :: more, rest)
        else some ([], cells)
      | [] => some ([], [])

/-- The bytes of a tag, at least one. -/
def tagText1? (verbatim : Bool) (cells : List Cell) : Option (List UInt8 × List Cell) := do
  let (text, rest) ← tagText? verbatim (cells.length + 1) cells
  if text.isEmpty then none else return (text, rest)

/-- What counts of the text of a tag: nothing from an escaped NUL on. -/
def tagName (text : List UInt8) : List UInt8 :=
  text.takeWhile (· != 0)

/-- A handle: an exclamation mark, a name, and the closing exclamation mark if it is there. -/
def tagHandle? (cells : List Cell) : Option (List Char × List Cell) :=
  if peek cells == '!' then
    let (name, rest) := spanCells isNameChar (cells.drop 1)
    if peek rest == '!' then some ('!' :: (name ++ ['!']), rest.drop 1)
    else some ('!' :: name, rest)
  else none

/-- A tag: in angle brackets, behind a handle, or behind a single exclamation mark. -/
def tag? (cells : List Cell) : Option (List Char × List UInt8 × List Cell) :=
  if peekAt cells 1 == '<' then do
    let (suffix, rest) ← tagText1? true (cells.drop 2)
    if peek rest == '>' then return ([], tagName suffix, rest.drop 1) else none
  else do
    let (handle, rest) ← tagHandle? cells
    if 1 < handle.length && handle.getLast? == some '!' then
      let (suffix, rest) ← tagText1? false rest
      return (handle, tagName suffix, rest)
    else
      let (more, rest) ← tagText? false (rest.length + 1) rest
      let suffix := tagName (asciiBytes (handle.drop 1) ++ more)
      if suffix.isEmpty then return ([], asciiBytes ['!'], rest) else return (['!'], suffix, rest)

/-- A directive, from behind its percent sign. -/
def directive? (cells : List Cell) : Option (Token × List Cell) := do
  let (name, rest) := spanCells isNameChar cells
  if name.isEmpty || !isGap (peek rest) then none
  else
    let rest := (spanCells isBlank rest).2
    let (token, rest) ←
      if name == ['Y', 'A', 'M', 'L'] then do
        let (major, rest) ← versionNumber? rest
        if peek rest == '.' then
          let (minor, rest) ← versionNumber? (rest.drop 1)
          return (Token.version major minor, rest)
        else none
      else if name == ['T', 'A', 'G'] then do
        let (handle, rest) ← tagHandle? rest
        if (handle.getLast? == some '!') && isBlank (peek rest) then
          let (start, rest) ← tagText1? true (spanCells isBlank rest).2
          if isGap (peek rest) then return (Token.tagDirective handle (tagName start), rest) else none
        else none
      else none
    let rest ← skipLineEnd? rest
    return (token, rest)

/-- The name of an anchor or alias, from behind its mark. It ends at a gap or at one of a few
marks. -/
def anchorName? (cells : List Cell) : Option (List Char × List Cell) :=
  let (name, rest) := spanCells isNameChar cells
  let c := peek rest
  if !name.isEmpty && (isGap c || ['?', ':', ',', ']', '\x7d', '%', '@', '\x60'].contains c) then
    some (name, rest)
  else none

/-- The token at a mark that belongs to the document as a whole. -/
def cutDocumentMark? (s : Cutter) (token : Token) (rest : List Cell) : Option Cutter := do
  let s ← (s.unroll (-1)).dropCandidate?
  return { s.push token rest with keyAllowed := false }

/-- Opens a flow collection. -/
def cutFlowStart? (s : Cutter) (token : Token) : Option Cutter := do
  let s ← s.saveCandidate?
  return { s.push token (s.rest.drop 1) with
    candidates := none :: s.candidates, keyAllowed := true }

/-- Closes a flow collection. -/
def cutFlowEnd? (s : Cutter) (token : Token) : Option Cutter := do
  let s ← s.dropCandidate?
  let candidates := if s.inFlow then s.candidates.tail else s.candidates
  return { s.push token (s.rest.drop 1) with candidates, keyAllowed := false }

/-- A hyphen before an entry of a block sequence. -/
def cutBlockEntry? (s : Cutter) : Option Cutter :=
  if !s.inFlow && !s.keyAllowed then none
  else do
    let s ← (s.roll s.column none .blockSequenceStart).dropCandidate?
    return { s.push .blockEntry (s.rest.drop 1) with keyAllowed := true }

/-- A question mark before a key. -/
def cutKey? (s : Cutter) : Option Cutter :=
  if !s.inFlow && !s.keyAllowed then none
  else do
    let s ← (s.roll s.column none .blockMappingStart).dropCandidate?
    return { s.push .key (s.rest.drop 1) with keyAllowed := !s.inFlow }

/-- A colon before a value. If a key may have begun before it, that key did. -/
def cutValue? (s : Cutter) : Option Cutter :=
  match s.candidates with
  | some candidate :: outer =>
    -- the key was cut before it was known to be one: its token goes in front of it
    let s := { s with
      tokens := s.tokens.insertIdxIfInBounds candidate.position .key
      candidates := none :: outer }
    let s := s.roll candidate.column (some candidate.position) .blockMappingStart
    some { s.push .value (s.rest.drop 1) with keyAllowed := false }
  | _ =>
    if !s.inFlow && !s.keyAllowed then none
    else
      let s := s.roll s.column none .blockMappingStart
      some { s.push .value (s.rest.drop 1) with keyAllowed := !s.inFlow }

/-- A token that can begin a key and lets none begin right behind it. -/
def cutWord? (s : Cutter) (read : List Cell → Option (Token × List Cell)) : Option Cutter := do
  let s ← s.saveCandidate?
  let (token, rest) ← read s.rest
  return { s.push token rest with keyAllowed := false }

/-- A block scalar. -/
def cutBlockScalar? (s : Cutter) (literal : Bool) : Option Cutter := do
  let s ← s.dropCandidate?
  let (text, rest) ← block? literal s.indent (s.rest.drop 1)
  return { s.push (.scalar text (if literal then .literal else .folded)) rest with
    keyAllowed := true }

/-- A plain scalar. A line break behind it lets a key begin. -/
def cutPlain? (s : Cutter) : Option Cutter := do
  let s ← s.saveCandidate?
  let (text, broken, rest) ← plain? s.inFlow (s.indent + 1) (s.rest.length + 1) {} s.rest
  return { s.push (.scalar text .plain) rest with keyAllowed := broken }

/-- A quoted scalar. -/
def cutQuoted? (s : Cutter) (quote : Char) : Option Cutter :=
  s.cutWord? fun cells =>
    (quoted? quote (cells.length + 1) (cells.drop 1)).map fun (text, rest) =>
      (.scalar text .quoted, rest)

/-- Whether a plain scalar can start here. -/
def startsPlain (s : Cutter) : Bool :=
  let c := peek s.rest
  let next := peekAt s.rest 1
  let marks :=
    ['-', '?', ':', ',', '[', ']', '\x7b', '\x7d', '#', '&', '*', '!', '|', '>', '\'', '"', '%',
     '@', '\x60']
  !(isGap c || marks.contains c) || (c == '-' && !isBlank next) ||
    (!s.inFlow && (c == '?' || c == ':') && !isGap next)

/-- The next token, once blocks have been closed. -/
def cutToken? (s : Cutter) : Option Cutter :=
  let c := peek s.rest
  let next := peekAt s.rest 1
  if s.column == 0 && c == '%' then do
    let s ← (s.unroll (-1)).dropCandidate?
    let (token, rest) ← directive? (s.rest.drop 1)
    return { s.push token rest with keyAllowed := false }
  else if atDocumentMark s.rest then
    s.cutDocumentMark? (if c == '-' then .documentStart else .documentEnd) (s.rest.drop 3)
  else if c == '[' then s.cutFlowStart? .flowSequenceStart
  else if c == '\x7b' then s.cutFlowStart? .flowMappingStart
  else if c == ']' then s.cutFlowEnd? .flowSequenceEnd
  else if c == '\x7d' then s.cutFlowEnd? .flowMappingEnd
  else if c == ',' then do
    let s ← s.dropCandidate?
    return { s.push .flowEntry (s.rest.drop 1) with keyAllowed := true }
  else if c == '-' && isGap next then s.cutBlockEntry?
  else if c == '?' && (s.inFlow || isGap next) then s.cutKey?
  else if c == ':' && (s.inFlow || isGap next) then s.cutValue?
  else if c == '*' then
    s.cutWord? fun cells =>
      (anchorName? (cells.drop 1)).map fun (name, rest) => (.reference name, rest)
  else if c == '&' then
    s.cutWord? fun cells =>
      (anchorName? (cells.drop 1)).map fun (name, rest) => (.anchor name, rest)
  else if c == '!' then
    let inFlow := s.inFlow
    s.cutWord? fun cells =>
      match tag? cells with
      | some (handle, suffix, rest) =>
        if (inFlow && peek rest == ',') || isGap (peek rest) then some (.tag handle suffix, rest)
        else none
      | none => none
  else if c == '|' && !s.inFlow then s.cutBlockScalar? true
  else if c == '>' && !s.inFlow then s.cutBlockScalar? false
  else if c == '\'' || c == '"' then s.cutQuoted? c
  else if s.startsPlain then s.cutPlain?
  else none

/-- Cuts tokens up to the end of the source. -/
def run? : Nat → Cutter → Option (Array Token)
  | 0, _ => none
  | fuel + 1, s => do
    let s ← s.toToken.dropStale?
    let s := s.unroll s.column
    if peek s.rest == endMark then
      let s ← (s.unroll (-1)).dropCandidate?
      return s.tokens
    else
      let s ← s.cutToken?
      run? fuel s

end Cutter

/-- The tokens of a source. Every token takes at least one character, so fuel for one step more than
there are characters is enough. -/
def tokens? (cells : List Cell) : Option (List Token) :=
  (Cutter.run? (cells.length + 1) { rest := cells }).map Array.toList

end GrowthGrammar.Yaml
