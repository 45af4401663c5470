import GrowthGrammar.Definition.Reading
import GrowthGrammar.Proofs.Json.Value

/-!
# Decoding what has been written as JSON

The document of a JSON value has no aliases, so decoders take it as it stands. Texts, lists and
objects are decoded to what was written, and a number to the number that its numeral is read as
(`reread?`). Of an object whose members have the names of fields, each once, every field is found.
-/

set_option autoImplicit false

namespace GrowthGrammar

open Json (node)

variable {α : Type}

/-! ## Decoders that follow no alias -/

/-- A decoder whose result is settled. -/
def Decoder.ofOption : Option α → Decoder α
  | some value => pure value
  | none => failure

theorem Decoder.ofOption_map {β : Type} (value : Option α) (f : α → β) :
    (ofOption value >>= fun x => pure (f x)) = ofOption (value.map f) := by
  cases value with
  | none => rfl
  | some value => exact pure_bind value _

/-- If every item has a settled result, so has the list. -/
theorem Decoder.mapM_eq {β : Type} {decode : α → Decoder β} {read : α → Option β}
    {items : List α} (h : ∀ item ∈ items, decode item = ofOption (read item)) :
    items.mapM decode = ofOption (items.mapM read) := by
  induction items with
  | nil => rfl
  | cons item items ih =>
      obtain ⟨hitem, hitems⟩ := List.forall_mem_cons.1 h
      rw [List.mapM_cons, List.mapM_cons, hitem, ih hitems]
      cases read item with
      | none => rfl
      | some value =>
          rw [ofOption, pure_bind, ofOption_map]
          cases items.mapM read <;> rfl

/-- If every item is decoded to itself, so is the list. -/
theorem Decoder.mapM_of_forall {decode : α → Decoder α} {items : List α}
    (h : ∀ item ∈ items, decode item = pure item) : items.mapM decode = pure items := by
  have hsettled : ∀ item ∈ items, decode item = ofOption (some item) := h
  have hall : items.mapM some = some items := by
    have hpure := List.mapM_pure (m := Option) (l := items) (f := id)
    rwa [List.map_id] at hpure
  rw [mapM_eq hsettled, hall]
  rfl

/-- A settled result is the result for a whole document. -/
theorem Document.decode?_eq {decode : Node → Decoder α} {document : Document} {value : Option α}
    (h : decode document.root = .ofOption value) : document.decode? decode = value := by
  rw [Document.decode?, h]
  cases value <;> rfl

/-! ## Scalars and lists -/

theorem target_node (json : Json) : (node json).target = pure (node json) := by
  cases json <;> rfl

theorem asText_string (text : String) : (node (.string text)).asText = pure text := by
  rw [Node.asText, Node.scalarAs, target_node, pure_bind]
  rfl

theorem asNumber_number (x : Float) :
    (node (.number x)).asNumber = .ofOption (Json.numeralValue? x) := by
  rw [Node.asNumber, Node.scalarAs, target_node, pure_bind, node, Json.numberReadings]
  by_cases hx : x.isFinite = true
  · rw [if_pos hx]
    cases Json.numeralValue? x <;> rfl
  · rw [if_neg hx, Json.numeralValue?, if_neg hx]
    rfl

/-- The number that is read from the text of a number, if there is one. -/
def Json.reread? (x : Float) : Option Float :=
  (Json.read? (String.ofList (Json.number x).compact)).bind (Document.decode? Node.asNumber)

theorem Json.reread?_eq (x : Float) : Json.reread? x = Json.numeralValue? x := by
  rw [Json.reread?, Json.read?_compact, Option.bind_some]
  exact Document.decode?_eq (asNumber_number x)

theorem asItems_array (items : List Json) :
    (node (.array items)).asItems = pure (items.map node) := by
  rw [Node.asItems, target_node, node, Json.nodes_eq]
  rfl

/-- Items are decoded one by one. -/
theorem asListOf_array {β : Type} {decode : Node → Decoder β} {encode : α → Json}
    {read : α → Option β} {items : List α}
    (h : ∀ item ∈ items, decode (node (encode item)) = .ofOption (read item)) :
    (node (.array (items.map encode))).asListOf decode = .ofOption (items.mapM read) := by
  rw [Node.asListOf, asItems_array, pure_bind, List.map_map, List.mapM_map]
  exact Decoder.mapM_eq h

theorem asListOf_of_forall {decode : Node → Decoder α} {encode : α → Json} {items : List α}
    (h : ∀ item ∈ items, decode (node (encode item)) = pure item) :
    (node (.array (items.map encode))).asListOf decode = pure items := by
  rw [Node.asListOf, asItems_array, pure_bind, List.map_map, List.mapM_map]
  exact Decoder.mapM_of_forall h

theorem asListOf_textArray (texts : List String) :
    (node (textArray texts)).asListOf Node.asText = pure texts :=
  asListOf_of_forall fun text _ => asText_string text

/-! ## Objects -/

/-- The fields of an object as they are decoded. -/
def fieldNodes (members : List (String × Json)) : List (String × Node) :=
  members.map fun member => (member.1, node member.2)

theorem asEntries_object (members : List (String × Json)) :
    (node (.object members)).asEntries = pure (fieldNodes members) := by
  rw [Node.asEntries, target_node, node, Json.entries_eq]
  simp only [pure_bind]
  rw [List.mapM_map]
  exact List.mapM_pure

/-- All fields of an object are found if each is among the known names, in their order. -/
theorem asRecord_object {names : List String} {members : List (String × Json)}
    (hnames : names.Nodup) (h : (members.map Prod.fst).Sublist names) :
    (node (.object members)).asRecord names = pure (fieldNodes members) := by
  have hentries := asEntries_object members
  have hfst : (fieldNodes members).map Prod.fst = members.map Prod.fst := by
    simp [fieldNodes]
  have hknown : (fieldNodes members).filter (fun entry => names.contains entry.1) =
      fieldNodes members := by
    refine List.filter_eq_self.2 fun entry hentry => ?_
    have hmem : entry.1 ∈ members.map Prod.fst := hfst ▸ List.mem_map_of_mem hentry
    simpa using h.subset hmem
  rw [Node.asRecord, target_node]
  simp only [node, pure_bind]
  rw [← node, hentries, pure_bind, hknown, hfst, if_pos (h.nodup hnames)]

theorem lookup_fieldNodes (members : List (String × Json)) (name : String) :
    (fieldNodes members).lookup name = (members.lookup name).map node := by
  induction members with
  | nil => rfl
  | cons member members ih =>
      rw [fieldNodes, List.map_cons, List.lookup_cons, List.lookup_cons]
      split
      · rfl
      · exact ih

section Fields

variable {decode : Node → Decoder α} {members : List (String × Json)} {name : String}

theorem requiredField_eq {json : Json} (h : members.lookup name = some json) :
    requiredField decode (fieldNodes members) name = decode (node json) := by
  rw [requiredField, lookup_fieldNodes, h]
  rfl

theorem fieldOr_of_none {fallback : α} (h : members.lookup name = none) :
    fieldOr fallback decode (fieldNodes members) name = pure fallback := by
  rw [fieldOr, lookup_fieldNodes, h]
  rfl

theorem fieldOr_of_some {fallback : α} {json : Json} (h : members.lookup name = some json) :
    fieldOr fallback decode (fieldNodes members) name = decode (node json) := by
  rw [fieldOr, lookup_fieldNodes, h]
  rfl

/-- A field that is left out on a condition has to fall back then on what would be decoded. -/
theorem fieldOr_eq {fallback : α} {result : Decoder α} {absent : Bool} {json : Json}
    (h : members.lookup name = if absent then none else some json)
    (habsent : absent = true → pure fallback = result)
    (hdecode : absent = false → decode (node json) = result) :
    fieldOr fallback decode (fieldNodes members) name = result := by
  cases absent with
  | true => rw [fieldOr_of_none h, habsent rfl]
  | false => rw [fieldOr_of_some h, hdecode rfl]

/-- Whether a value is written as one. A number that is not finite is not. -/
def Json.IsPresent : Json → Prop
  | .number value => value.isFinite = true
  | _ => True

theorem asOptional_node {json : Json} {value : α} (hpresent : json.IsPresent)
    (h : decode (node json) = pure value) : (node json).asOptional decode = pure (some value) := by
  rw [Node.asOptional, target_node, pure_bind]
  cases json with
  | number x =>
      have hx : x.isFinite = true := hpresent
      rw [node, Json.numberReadings, if_pos hx] at h ⊢
      simp only [h, pure_bind]
  | string text =>
      rw [node] at h ⊢
      simp only [h, pure_bind]
  | array items =>
      rw [node] at h ⊢
      simp only [h, pure_bind]
  | object members =>
      rw [node] at h ⊢
      simp only [h, pure_bind]

/-- A field that may be absent is decoded to what was written, or to nothing. -/
theorem optionalField_eq {encode : α → Json} {value : Option α}
    (h : members.lookup name = value.map encode)
    (hpresent : ∀ x, value = some x → (encode x).IsPresent)
    (hdecode : ∀ x, value = some x → decode (node (encode x)) = pure x) :
    optionalField decode (fieldNodes members) name = pure value := by
  rw [optionalField]
  cases value with
  | none => exact fieldOr_of_none h
  | some x =>
      rw [fieldOr_of_some h]
      exact asOptional_node (hpresent x rfl) (hdecode x rfl)

end Fields

/-! ## Members that may be missing -/

theorem lookup_optionalMember (name other : String) (encode : α → Json) (value : Option α) :
    (optionalMember name encode value).lookup other =
      if other = name then value.map encode else none := by
  cases value with
  | none => simp [optionalMember]
  | some x =>
      by_cases hname : other = name
      · simp [optionalMember, hname]
      · simp [optionalMember, hname, List.lookup_cons, beq_eq_false_iff_ne.2 hname]

theorem names_optionalMember (name : String) (encode : α → Json) (value : Option α) :
    ((optionalMember name encode value).map Prod.fst).Sublist [name] := by
  cases value with
  | none => exact List.nil_sublist _
  | some x => exact List.Sublist.refl _

/-- A member that is left out on a condition. -/
theorem ite_eq_optionalMember (absent : Bool) (name : String) (json : Json) :
    (if absent then [] else [(name, json)]) =
      optionalMember name (fun json => json) (if absent then none else some json) := by
  cases absent <;> rfl

end GrowthGrammar
