/-!
# Documents

What definition files and exchanged words look like once their text has been read: a tree of scalars,
lists and maps, whose nodes may also be aliases of other nodes. What a scalar means depends on who
reads it, so a `Scalar` records how it reads as a text, as a number, as the absence of a value, and as
an empty collection. The two text formats differ only in these readings and in whether a list may
stand for a record; all else about decoding is shared.

A record is a map under known field names. Fields may come in any order and unknown ones are passed
over, but a known field may not be repeated.

A `Decoder` follows aliases as it meets them. A document limits how many it may follow, so that a
small text cannot stand for too much.
-/

set_option autoImplicit false

namespace GrowthGrammar

/-- The readings of a scalar. -/
structure Scalar where
  text : Option String := none
  number : Option Float := none
  /-- Whether the scalar stands for the absence of a value; none if it is marked to do so and is not
  written so. -/
  isNull : Option Bool := some false
  /-- Whether the scalar stands for a list or map without entries. -/
  isEmpty : Bool := false
  deriving DecidableEq

/-- A node of a document. -/
inductive Node where
  | scalar (readings : Scalar)
  /-- A list; `isRecord` says whether it may stand for a record, by the order of the fields. -/
  | list (isRecord : Bool) (items : List Node)
  | map (entries : List (Node × Node))
  /-- A node that is written in another place. -/
  | reference (id : Nat)

mutual

/-- The size of a node: one for a scalar or an alias, and two for a collection, besides what is in
it. -/
def Node.size : Node → Nat
  | .scalar _ => 1
  | .reference _ => 1
  | .list _ items => 2 + Node.itemsSize items
  | .map entries => 2 + Node.entriesSize entries

/-- The size of some nodes together. -/
def Node.itemsSize : List Node → Nat
  | [] => 0
  | node :: rest => node.size + Node.itemsSize rest

/-- The size of some entries together. -/
def Node.entriesSize : List (Node × Node) → Nat
  | [] => 0
  | (key, value) :: rest => key.size + value.size + Node.entriesSize rest

end

/-- A document that has been read. -/
structure Document where
  root : Node
  /-- The nodes that aliases stand for. -/
  anchored : List (Nat × Node) := []
  /-- How many aliases may be followed. -/
  limit : Nat := 0

/-- A decoder is given the nodes that aliases stand for and keeps the number of aliases that it may
still follow. -/
abbrev Decoder (α : Type) := ReaderT (List (Nat × Node)) (StateT Nat Option) α

/-- Decodes a whole document. -/
def Document.decode? {α : Type} (decode : Node → Decoder α) (document : Document) : Option α :=
  ((decode document.root).run document.anchored).run' document.limit

namespace Node

/-- The node itself, or the node that it is an alias of. -/
def target : Node → Decoder Node
  | reference id => do
    let left ← get
    let anchored ← read
    match left, anchored.lookup id with
    | left + 1, some node =>
      set left
      return node
    | _, _ => failure
  | node => return node

/-- Decodes a scalar. -/
def scalarAs {α : Type} (reading : Scalar → Option α) (node : Node) : Decoder α := do
  match ← node.target with
  | scalar readings =>
    match reading readings with
    | some value => return value
    | none => failure
  | _ => failure

/-- The node as a text. -/
def asText (node : Node) : Decoder String :=
  node.scalarAs Scalar.text

/-- The node as a number. -/
def asNumber (node : Node) : Decoder Float :=
  node.scalarAs Scalar.number

/-- The items of a list. -/
def asItems (node : Node) : Decoder (List Node) := do
  match ← node.target with
  | list _ items => return items
  | scalar readings => if readings.isEmpty then return [] else failure
  | _ => failure

/-- The entries of a map, each under a text. -/
def asEntries (node : Node) : Decoder (List (String × Node)) := do
  match ← node.target with
  | map entries =>
    entries.mapM fun (key, value) => do
      let name ← key.asText
      return (name, value)
  | scalar readings => if readings.isEmpty then return [] else failure
  | _ => failure

/-- A list whose items all decode. -/
def asListOf {α : Type} (decode : Node → Decoder α) (node : Node) : Decoder (List α) := do
  let items ← node.asItems
  items.mapM decode

/-- The fields of a record with the given names. -/
def asRecord (names : List String) (node : Node) : Decoder (List (String × Node)) := do
  match ← node.target with
  | list isRecord items =>
    if isRecord && items.length ≤ names.length then return names.zip items else failure
  | node =>
    let entries ← node.asEntries
    let known := entries.filter fun entry => names.contains entry.1
    if (known.map Prod.fst).Nodup then return known else failure

/-- Decodes a value that may be null. -/
def asOptional {α : Type} (decode : Node → Decoder α) (node : Node) : Decoder (Option α) := do
  let node ← node.target
  let isNull :=
    match node with
    | scalar readings => readings.isNull
    | _ => some false
  match isNull with
  | some true => return none
  | some false =>
    let value ← decode node
    return some value
  | none => failure

end Node

/-- Decodes a field that must be present. -/
def requiredField {α : Type} (decode : Node → Decoder α) (fields : List (String × Node))
    (name : String) : Decoder α :=
  match fields.lookup name with
  | some value => decode value
  | none => failure

/-- Decodes a field that has a value of its own when it is absent. -/
def fieldOr {α : Type} (fallback : α) (decode : Node → Decoder α) (fields : List (String × Node))
    (name : String) : Decoder α :=
  match fields.lookup name with
  | some value => decode value
  | none => return fallback

/-- Decodes a field that may be absent or null. -/
def optionalField {α : Type} (decode : Node → Decoder α) (fields : List (String × Node))
    (name : String) : Decoder (Option α) :=
  fieldOr none (Node.asOptional decode) fields name

end GrowthGrammar
