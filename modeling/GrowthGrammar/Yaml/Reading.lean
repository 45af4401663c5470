import GrowthGrammar.Decimal.Literal
import GrowthGrammar.Document
import GrowthGrammar.Yaml.Token

/-!
# Reading YAML

The document that a YAML text is. Any scalar reads as the text it spells. A plain scalar also reads as
a number if it is spelled like one, as the absence of a value if it is empty or a null word, and as an
empty collection if it is empty.

Anchors are numbered where they first stand, and an alias is known by the number its anchor has at
that place. An anchor that is used again takes the next number, but leaves that number free: the next
anchor takes it too, and a number stands for the last node that took it, in the whole document.
-/

set_option autoImplicit false

namespace GrowthGrammar.Yaml

/-- The number that a scalar spells: a signed decimal literal within the range of doubles, or one of
the words for infinity and for no number. -/
def number? (text : List Char) : Option Float :=
  let unsigned := if text.head? == some '+' then text.drop 1 else text
  let word := String.ofList unsigned
  if [".inf", ".Inf", ".INF"].contains word then some Decimal.infinity
  else if ["-.inf", "-.Inf", "-.INF"].contains (String.ofList text) then some (-Decimal.infinity)
  else if [".nan", ".NaN", ".NAN"].contains (String.ofList text) then some (0 / 0)
  else
    let negative := text.head? == some '-'
    match Decimal.Literal.ofChars? (if negative then text.drop 1 else unsigned) with
    | some literal =>
      let magnitude := literal.toFloat
      if magnitude.isFinite then some (if negative then -magnitude else magnitude) else none
    | none => none

/-- The words for the absence of a value. -/
def isNullWord (text : List Char) : Bool :=
  ["null", "Null", "NULL", "~"].contains (String.ofList text)

/-- The tag of the absence of a value. -/
def nullTag : List UInt8 := asciiBytes "tag:yaml.org,2002:null".toList

/-- The tag of numbers. -/
def floatTag : List UInt8 := asciiBytes "tag:yaml.org,2002:float".toList

/-- The readings of a scalar. A tag decides whether a block of lines can be a number, and whether a
plain scalar is the absence of a value. -/
def readings (tag : Option (List UInt8)) (style : Style) (text : List Char) : Scalar :=
  let isPlain := style == .plain
  { text := some (String.ofList text)
    number :=
      if isPlain || (style == .literal && tag == some floatTag) then number? text else none
    isNull :=
      match tag with
      | none => some (isPlain && (text.isEmpty || isNullWord text))
      | some tag =>
        if isPlain && tag == nullTag then (if isNullWord text then some true else none)
        else some false
    isEmpty := isPlain && text.isEmpty }

/-- A scalar that is not written at all. -/
def emptyNode (tag : Option (List UInt8)) : Node :=
  .scalar (readings tag .plain [])

/-- The anchors met so far. -/
structure Anchors where
  /-- The numbers of the anchors. -/
  numbers : List (List Char × Nat) := []
  /-- The nodes under numbers, the latest first; none for a node that has not ended. -/
  nodes : List (Nat × Option Node) := []

namespace Anchors

/-- The number that the next anchor takes. -/
def nextNumber (anchors : Anchors) : Nat :=
  anchors.numbers.length

/-- Begins a node with an anchor. -/
def start (anchors : Anchors) (anchor : Option (List Char)) : Anchors :=
  match anchor with
  | some name =>
    let id := anchors.nextNumber
    { numbers := (name, id) :: anchors.numbers.filter (·.1 != name)
      nodes := (id, none) :: anchors.nodes }
  | none => anchors

/-- Ends a node whose anchor has taken a number. A node inside it that took the same number is the
later one and stays. -/
def finish (anchors : Anchors) (id : Nat) (node : Node) : Anchors :=
  match anchors.nodes.lookup id with
  | some none => { anchors with nodes := (id, some node) :: anchors.nodes }
  | _ => anchors

/-- The nodes that have ended. -/
def ended (anchors : Anchors) : List (Nat × Node) :=
  anchors.nodes.filterMap fun (id, node) => node.map fun node => (id, node)

end Anchors

/-- The texts that handles of tags stand for. -/
abbrev Handles := List (List Char × List UInt8)

/-- The handles that need no directive. -/
def defaultHandles : Handles :=
  [(['!'], asciiBytes ['!']), (['!', '!'], asciiBytes "tag:yaml.org,2002:".toList)]

/-- The anchor and the tag before a node, in either order. -/
structure Properties where
  anchor : Option (List Char) := none
  tag : Option (List UInt8) := none

/-- The tag behind a handle. -/
def resolveTag? (handles : Handles) (handle : List Char) (suffix : List UInt8) :
    Option (List UInt8) :=
  if handle.isEmpty then some suffix
  else (handles.lookup handle).map fun start => start ++ suffix

/-- The properties at the start of some tokens. -/
def properties? (handles : Handles) (tokens : List Token) : Option (Properties × List Token) :=
  match tokens with
  | .anchor name :: .tag handle suffix :: rest =>
    (resolveTag? handles handle suffix).map fun tag => (⟨some name, some tag⟩, rest)
  | .tag handle suffix :: .anchor name :: rest =>
    (resolveTag? handles handle suffix).map fun tag => (⟨some name, some tag⟩, rest)
  | .anchor name :: rest => some (⟨some name, none⟩, rest)
  | .tag handle suffix :: rest =>
    (resolveTag? handles handle suffix).map fun tag => (⟨none, some tag⟩, rest)
  | rest => some ({}, rest)

/-- Whether a value is missing before the next token of a block mapping. -/
def endsEntry : List Token → Bool
  | .key :: _ | .value :: _ | .blockEnd :: _ => true
  | _ => false

/-- Whether an entry is missing before the next token of a block sequence. -/
def endsItem : List Token → Bool
  | .blockEntry :: _ | .blockEnd :: _ => true
  | _ => false

/-- Whether a value is missing before the next token of a flow mapping. -/
def endsFlowEntry : List Token → Bool
  | .flowEntry :: _ | .flowMappingEnd :: _ => true
  | _ => false

/-- Whether a value is missing before the next token of a flow sequence. -/
def endsFlowItem : List Token → Bool
  | .flowEntry :: _ | .flowSequenceEnd :: _ => true
  | _ => false

/-- Where a node may stand. -/
inductive Place where
  /-- In a block. -/
  | block
  /-- In a block mapping, where the entries of a sequence need no indentation. -/
  | blockEntry
  /-- In a flow collection. -/
  | flow
  deriving DecidableEq

/-- What reading a node leaves. -/
structure Step (α : Type) where
  result : α
  anchors : Anchors
  rest : List Token

mutual

/-- The node at the start of some tokens. -/
def node? (handles : Handles) : Nat → Place → Anchors → List Token → Option (Step Node)
  | 0, _, _, _ => none
  | fuel + 1, place, anchors, tokens =>
    match tokens with
    | .reference name :: rest =>
      (anchors.numbers.lookup name).map fun id => ⟨.reference id, anchors, rest⟩
    | _ => do
      let (properties, rest) ← properties? handles tokens
      let id := anchors.nextNumber
      let anchors := anchors.start properties.anchor
      let close (node : Node) (anchors : Anchors) (rest : List Token) : Step Node :=
        ⟨node, if properties.anchor.isSome then anchors.finish id node else anchors, rest⟩
      let list (step : Step (List Node)) : Step Node :=
        close (.list false step.result) step.anchors step.rest
      let map (step : Step (List (Node × Node))) : Step Node :=
        close (.map step.result) step.anchors step.rest
      match rest with
      | .scalar text style :: rest =>
        return close (.scalar (readings properties.tag style text)) anchors rest
      | .flowSequenceStart :: .flowSequenceEnd :: rest =>
        return close (.list false []) anchors rest
      | .flowSequenceStart :: rest => (flowItems? handles fuel anchors rest).map list
      | .flowMappingStart :: .flowMappingEnd :: rest =>
        return close (.map []) anchors rest
      | .flowMappingStart :: rest => (flowEntries? handles fuel anchors rest).map map
      | .blockSequenceStart :: rest =>
        if place = .flow then none else (blockItems? handles fuel anchors rest).map list
      | .blockMappingStart :: rest =>
        if place = .flow then none else (blockEntries? handles fuel anchors rest).map map
      | .blockEntry :: _ =>
        if place = .blockEntry then (looseItems? handles fuel anchors rest).map list
        else if properties.anchor.isSome || properties.tag.isSome then
          return close (emptyNode properties.tag) anchors rest
        else none
      | rest =>
        if properties.anchor.isSome || properties.tag.isSome then
          return close (emptyNode properties.tag) anchors rest
        else none

/-- The items of a block sequence and its end. -/
def blockItems? (handles : Handles) : Nat → Anchors → List Token → Option (Step (List Node))
  | 0, _, _ => none
  | fuel + 1, anchors, tokens =>
    match tokens with
    | .blockEnd :: rest => some ⟨[], anchors, rest⟩
    | .blockEntry :: rest => do
      let item ←
        if endsItem rest then some ⟨emptyNode none, anchors, rest⟩
        else node? handles fuel .block anchors rest
      let items ← blockItems? handles fuel item.anchors item.rest
      return { items with result := item.result :: items.result }
    | _ => none

/-- The items of a sequence that is not indented further than the mapping around it. -/
def looseItems? (handles : Handles) : Nat → Anchors → List Token → Option (Step (List Node))
  | 0, _, _ => none
  | fuel + 1, anchors, tokens =>
    match tokens with
    | .blockEntry :: rest => do
      let item ←
        if endsItem rest || endsEntry rest then some ⟨emptyNode none, anchors, rest⟩
        else node? handles fuel .block anchors rest
      let items ← looseItems? handles fuel item.anchors item.rest
      return { items with result := item.result :: items.result }
    | rest => some ⟨[], anchors, rest⟩

/-- The entries of a block mapping and its end. -/
def blockEntries? (handles : Handles) :
    Nat → Anchors → List Token → Option (Step (List (Node × Node)))
  | 0, _, _ => none
  | fuel + 1, anchors, tokens =>
    match tokens with
    | .blockEnd :: rest => some ⟨[], anchors, rest⟩
    | .key :: rest => do
      let key ←
        if endsEntry rest then some ⟨emptyNode none, anchors, rest⟩
        else node? handles fuel .blockEntry anchors rest
      let value ←
        match key.rest with
        | .value :: rest =>
          if endsEntry rest then some ⟨emptyNode none, key.anchors, rest⟩
          else node? handles fuel .blockEntry key.anchors rest
        | rest => some ⟨emptyNode none, key.anchors, rest⟩
      let entries ← blockEntries? handles fuel value.anchors value.rest
      return { entries with result := (key.result, value.result) :: entries.result }
    | _ => none

/-- One or more items of a flow sequence and its end. An item may be a mapping of a single entry. -/
def flowItems? (handles : Handles) : Nat → Anchors → List Token → Option (Step (List Node))
  | 0, _, _ => none
  | fuel + 1, anchors, tokens => do
    let item ←
      match tokens with
      | .key :: rest => do
        let key : Step Node ←
          match rest with
          | .value :: rest => some ⟨emptyNode none, anchors, rest⟩
          | .flowEntry :: rest => some ⟨emptyNode none, anchors, rest⟩
          | .flowSequenceEnd :: rest => some ⟨emptyNode none, anchors, rest⟩
          | rest => node? handles fuel .flow anchors rest
        let value ←
          match key.rest with
          | .value :: rest =>
            if endsFlowItem rest then some ⟨emptyNode none, key.anchors, rest⟩
            else node? handles fuel .flow key.anchors rest
          | rest => some ⟨emptyNode none, key.anchors, rest⟩
        some ⟨.map [(key.result, value.result)], value.anchors, value.rest⟩
      | rest => node? handles fuel .flow anchors rest
    match item.rest with
    | .flowSequenceEnd :: rest => return ⟨[item.result], item.anchors, rest⟩
    | .flowEntry :: .flowSequenceEnd :: rest => return ⟨[item.result], item.anchors, rest⟩
    | .flowEntry :: rest => do
      let items ← flowItems? handles fuel item.anchors rest
      return { items with result := item.result :: items.result }
    | _ => none

/-- One or more entries of a flow mapping and its end. -/
def flowEntries? (handles : Handles) :
    Nat → Anchors → List Token → Option (Step (List (Node × Node)))
  | 0, _, _ => none
  | fuel + 1, anchors, tokens => do
    let entry : Step (Node × Node) ←
      match tokens with
      | .key :: rest => do
        let key : Step Node ←
          match rest with
          | .value :: _ => some ⟨emptyNode none, anchors, rest⟩
          | rest =>
            if endsFlowEntry rest then some ⟨emptyNode none, anchors, rest⟩
            else node? handles fuel .flow anchors rest
        let value : Step Node ←
          match key.rest with
          | .value :: rest =>
            if endsFlowEntry rest then some ⟨emptyNode none, key.anchors, rest⟩
            else node? handles fuel .flow key.anchors rest
          | rest => some ⟨emptyNode none, key.anchors, rest⟩
        some ⟨(key.result, value.result), value.anchors, value.rest⟩
      | rest =>
        (node? handles fuel .flow anchors rest).map fun key =>
          ⟨(key.result, emptyNode none), key.anchors, key.rest⟩
    match entry.rest with
    | .flowMappingEnd :: rest => return ⟨[entry.result], entry.anchors, rest⟩
    | .flowEntry :: .flowMappingEnd :: rest => return ⟨[entry.result], entry.anchors, rest⟩
    | .flowEntry :: rest => do
      let entries ← flowEntries? handles fuel entry.anchors rest
      return { entries with result := entry.result :: entries.result }
    | _ => none

end

/-- The directives before a document. A version is given at most once and must be one that is known,
and no handle is given twice. -/
def directives? : (versioned : Bool) → Handles → List Token → Option (Handles × List Token)
  | versioned, given, .version major minor :: rest =>
    if versioned || major != 1 || (minor != 1 && minor != 2) then none
    else directives? true given rest
  | versioned, given, .tagDirective handle start :: rest =>
    if (given.lookup handle).isSome then none
    else directives? versioned ((handle, start) :: given) rest
  | _, given, rest => some (given, rest)

/-- Whether a document starts with a directive or a mark. -/
def isExplicit : List Token → Bool
  | .version _ _ :: _ | .tagDirective _ _ :: _ | .documentStart :: _ => true
  | _ => false

/-- Whether a document behind its mark is empty. -/
def isEmptyDocument : List Token → Bool
  | [] | .documentEnd :: _ => true
  | rest => isExplicit rest

/-- The document that some tokens are. There is at most one; without any token it is empty. A token
takes at most two steps down, so twice as much fuel as there are tokens is enough. -/
def document? (tokens : List Token) : Option Document :=
  let fuel := 2 * tokens.length + 2
  let content (handles : Handles) (tokens : List Token) : Option (Step Node) :=
    node? handles fuel .block {} tokens
  let read : Option (Step Node) :=
    if tokens.isEmpty then some ⟨emptyNode none, {}, []⟩
    else if isExplicit tokens then
      match directives? false [] tokens with
      | some (given, .documentStart :: rest) =>
        if isEmptyDocument rest then some ⟨emptyNode none, {}, rest⟩
        else content (given ++ defaultHandles) rest
      | _ => none
    else content defaultHandles tokens
  read.bind fun step =>
    if (step.rest.dropWhile (· == .documentEnd)).isEmpty then
      some
        { root := step.result
          anchored := step.anchors.ended
          limit := 100 * step.result.size }
    else none

/-- The document that a whole text is. -/
def read? (source : String) : Option Document := do
  let cells ← cells? source
  let tokens ← tokens? cells
  document? tokens

end GrowthGrammar.Yaml
