import GrowthGrammar.Proofs.Json.Reading

/-!
# What is written spells the value

Both texts of a value spell it: the one without spaces and the one over several lines. So both are
read as the document of the value (`read?_compact`, `read?_pretty`).
-/

set_option autoImplicit false

namespace GrowthGrammar.Json

open Decimal (Ends)

theorem isGap_nil : IsGap [] := by
  intro c hc
  cases hc

theorem isGap_newline (level : Nat) : IsGap (newline level) := by
  intro c hc
  rcases List.mem_cons.1 hc with rfl | hc
  · rfl
  · obtain rfl := List.eq_of_mem_replicate hc
    rfl

/-! ## Lists and objects -/

/-- Parts behind commas, each with a gap before it. -/
def behindCommas {α : Type} (gap : List Char) (write : α → List Char) (parts : List α) :
    List Char :=
  parts.flatMap fun part => ',' :: (gap ++ write part)

/-- A member with a gap before its value. -/
def memberText (inner : List Char) (write : Json → List Char) (member : String × Json) :
    List Char :=
  quote member.1 ++ ':' :: (inner ++ write member.2)

theorem behindCommas_cons {α : Type} (gap : List Char) (write : α → List Char) (part : α)
    (parts : List α) (rest : List Char) :
    behindCommas gap write (part :: parts) ++ rest =
      ',' :: (gap ++ (write part ++ (behindCommas gap write parts ++ rest))) := by
  simp [behindCommas]

section Collections

variable {gap inner after : List Char} (write : Json → List Char)

/-- One or more items, if each of them is spelled. -/
theorem spellsItems_of_forall (hgap : IsGap gap) (hafter : IsGap after) (item : Json)
    (items : List Json) (rest : List Char)
    (h : ∀ value ∈ item :: items, ∀ rest, Ends rest → Spells value (write value ++ rest) rest) :
    SpellsItems (item :: items)
      (gap ++ (write item ++ (behindCommas gap write items ++ (after ++ ']' :: rest)))) rest := by
  induction items generalizing item with
  | nil =>
      have hends : Ends (after ++ ']' :: rest) := ends_gap hafter (Decimal.ends_cons.2 (by decide))
      exact .last hgap (h item List.mem_cons_self _ hends) hafter
  | cons next items ih =>
      have hnext := ih next fun value hvalue => h value (List.mem_cons_of_mem item hvalue)
      rw [behindCommas_cons]
      -- the gap between an item and its comma is empty
      have hitem := h item List.mem_cons_self
        ([] ++ ',' :: (gap ++ (write next ++ (behindCommas gap write items ++
          (after ++ ']' :: rest)))))
        (Decimal.ends_cons.2 (by decide))
      exact .more hgap hitem isGap_nil hnext

/-- One or more members, if each of their values is spelled. -/
theorem spellsMembers_of_forall (hgap : IsGap gap) (hinner : IsGap inner) (hafter : IsGap after)
    (member : String × Json) (members : List (String × Json)) (rest : List Char)
    (h : ∀ found ∈ member :: members, ∀ rest, Ends rest →
      Spells found.2 (write found.2 ++ rest) rest) :
    SpellsMembers (member :: members)
      (gap ++ (memberText inner write member ++ (behindCommas gap (memberText inner write) members ++
        (after ++ '\x7d' :: rest)))) rest := by
  have hmember : ∀ (found : String × Json) (behind : List Char),
      memberText inner write found ++ behind =
        quote found.1 ++ ([] ++ ':' :: (inner ++ (write found.2 ++ behind))) := by
    intro found behind
    simp [memberText]
  induction members generalizing member with
  | nil =>
      have hends : Ends (after ++ '\x7d' :: rest) :=
        ends_gap hafter (Decimal.ends_cons.2 (by decide))
      rw [hmember]
      exact .last hgap isGap_nil hinner (h member List.mem_cons_self _ hends) hafter
  | cons next members ih =>
      have hnext := ih next fun found hfound => h found (List.mem_cons_of_mem member hfound)
      rw [behindCommas_cons, hmember]
      have hvalue := h member List.mem_cons_self
        ([] ++ ',' :: (gap ++ (memberText inner write next ++
          (behindCommas gap (memberText inner write) members ++ (after ++ '\x7d' :: rest)))))
        (Decimal.ends_cons.2 (by decide))
      exact .more hgap isGap_nil hinner hvalue isGap_nil hnext

end Collections

/-! ## Values -/

theorem sizeOf_lt_array {value : Json} {items : List Json} (h : value ∈ items) :
    sizeOf value < sizeOf (Json.array items) := by
  have hlt := List.sizeOf_lt_of_mem h
  rw [Json.array.sizeOf_spec]
  omega

theorem sizeOf_lt_object {member : String × Json} {members : List (String × Json)}
    (h : member ∈ members) : sizeOf member.2 < sizeOf (Json.object members) := by
  have hlt := List.sizeOf_lt_of_mem h
  obtain ⟨name, value⟩ := member
  rw [Prod.mk.sizeOf_spec] at hlt
  rw [Json.object.sizeOf_spec]
  show sizeOf value < _
  omega

theorem compactItems_eq (items : List Json) :
    compactItems items = behindCommas [] compact items := by
  induction items with
  | nil => rfl
  | cons item items ih =>
      rw [compactItems, ih]
      rfl

theorem compactMembers_eq (members : List (String × Json)) :
    compactMembers members = behindCommas [] (memberText [] compact) members := by
  induction members with
  | nil => rfl
  | cons member members ih =>
      rw [compactMembers, ih]
      simp [behindCommas, memberText]

theorem prettyItems_eq (level : Nat) (items : List Json) :
    prettyItems level items = behindCommas (newline level) (pretty level) items := by
  induction items with
  | nil => rfl
  | cons item items ih =>
      rw [prettyItems, ih]
      simp [behindCommas]

theorem prettyMembers_eq (level : Nat) (members : List (String × Json)) :
    prettyMembers level members =
      behindCommas (newline level) (memberText [' '] (pretty level)) members := by
  induction members with
  | nil => rfl
  | cons member members ih =>
      rw [prettyMembers, ih]
      simp [behindCommas, memberText]

/-- The text without spaces spells the value. -/
theorem spells_compact (value : Json) (rest : List Char) (hrest : Ends rest) :
    Spells value (compact value ++ rest) rest := by
  match value with
  | .number value =>
      rw [compact]
      exact .number value hrest
  | .string text =>
      rw [compact]
      exact .string text rest
  | .array [] =>
      rw [compact]
      exact .emptyArray isGap_nil rest
  | .array (item :: items) =>
      have hitems := spellsItems_of_forall compact isGap_nil isGap_nil item items rest
        fun value hvalue => spells_compact value
      rw [compact, compactItems_eq]
      simpa using Spells.array hitems
  | .object [] =>
      rw [compact]
      exact .emptyObject isGap_nil rest
  | .object ((name, value) :: members) =>
      have hmembers := spellsMembers_of_forall compact isGap_nil isGap_nil isGap_nil (name, value)
        members rest fun found hfound => spells_compact found.2
      rw [compact, compactMembers_eq]
      simpa [memberText] using Spells.object hmembers
termination_by sizeOf value
decreasing_by
  · exact sizeOf_lt_array hvalue
  · exact sizeOf_lt_object hfound

/-- So does the text over several lines. -/
theorem spells_pretty (level : Nat) (value : Json) (rest : List Char) (hrest : Ends rest) :
    Spells value (pretty level value ++ rest) rest := by
  match value with
  | .number value =>
      rw [pretty]
      exact .number value hrest
  | .string text =>
      rw [pretty]
      exact .string text rest
  | .array [] =>
      rw [pretty]
      exact .emptyArray isGap_nil rest
  | .array (item :: items) =>
      have hitems := spellsItems_of_forall (pretty (level + 1)) (isGap_newline (level + 1))
        (isGap_newline level) item items rest fun value hvalue => spells_pretty (level + 1) value
      rw [pretty, prettyItems_eq]
      simpa using Spells.array hitems
  | .object [] =>
      rw [pretty]
      exact .emptyObject isGap_nil rest
  | .object ((name, value) :: members) =>
      have hspace : IsGap [' '] := by simp [IsGap, isSpace]
      have hmembers := spellsMembers_of_forall (pretty (level + 1)) (isGap_newline (level + 1))
        hspace (isGap_newline level) (name, value) members rest
        fun found hfound => spells_pretty (level + 1) found.2
      rw [pretty, prettyMembers_eq]
      simpa [memberText] using Spells.object hmembers
termination_by sizeOf value
decreasing_by
  · exact sizeOf_lt_array hvalue
  · exact sizeOf_lt_object hfound

/-- **Compact texts.** They are read as the document of the value. -/
theorem read?_compact (value : Json) :
    read? (String.ofList (compact value)) = some { root := node value } := by
  have h := spells_compact value [] Decimal.ends_nil
  rw [List.append_nil] at h
  have hread := read?_of_spells isGap_nil h isGap_nil
  rwa [List.nil_append] at hread

/-- **Texts over several lines.** They are read as the document of the value, too. -/
theorem read?_pretty (level : Nat) (value : Json) :
    read? (String.ofList (pretty level value)) = some { root := node value } := by
  have h := spells_pretty level value [] Decimal.ends_nil
  rw [List.append_nil] at h
  have hread := read?_of_spells isGap_nil h isGap_nil
  rwa [List.nil_append] at hread

end GrowthGrammar.Json
