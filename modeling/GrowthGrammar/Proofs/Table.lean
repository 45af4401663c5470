import GrowthGrammar.Table
import Mathlib.Data.String.Basic

/-!
# Tables and insertions

A table is made by inserting its own entries one after the other (`ofList_entries`), so nothing is a
table that insertions do not make.
-/

set_option autoImplicit false

namespace GrowthGrammar.Table

variable {α : Type}

/-- A name greater than all others is put at the end. -/
theorem insertEntry_of_forall_lt {name : String} (value : α) {entries : List (String × α)}
    (h : ∀ entry ∈ entries, entry.1 < name) :
    insertEntry name value entries = entries ++ [(name, value)] := by
  induction entries with
  | nil => rfl
  | cons first rest ih =>
      obtain ⟨hfirst, hrest⟩ := List.forall_mem_cons.1 h
      rw [insertEntry, if_neg hfirst.ne', if_neg hfirst.not_gt, ih hrest, List.cons_append]

theorem entries_insert (table : Table α) (name : String) (value : α) :
    (table.insert name value).entries = insertEntry name value table.entries :=
  rfl

/-- A table is the table of its entries. -/
theorem ofList_entries (table : Table α) : ofList table.entries = table := by
  have hfold : ∀ (front : Table α) (back : List (String × α)),
      ((front.entries ++ back).map Prod.fst).Pairwise (· < ·) →
        (back.foldl (fun table entry => table.insert entry.1 entry.2) front).entries =
          front.entries ++ back := by
    intro front back
    induction back generalizing front with
    | nil => exact fun _ => (List.append_nil _).symm
    | cons entry back ih =>
        intro hordered
        have hlt : ∀ other ∈ front.entries, other.1 < entry.1 := by
          rw [List.map_append, List.pairwise_append] at hordered
          exact fun other hother => hordered.2.2 other.1 (List.mem_map_of_mem hother) entry.1
            List.mem_cons_self
        have hinsert := insertEntry_of_forall_lt entry.2 hlt
        rw [List.foldl_cons, ih, entries_insert, hinsert, List.append_assoc]
        · rfl
        · rwa [entries_insert, hinsert, List.append_assoc]
  exact Table.ext (hfold empty table.entries table.ordered)

end GrowthGrammar.Table
