/-!
# Tables

Values under names. The entries of a `Table` stand in the order of their names, character by
character by code point, which is also the order of the bytes of the names in UTF-8, and a table
carries the proof of this; a name that is inserted again gets the new value. `get?_insert` says what
an insertion does to every look-up.
-/

set_option autoImplicit false

namespace GrowthGrammar

/-- Values under names, ordered by name. -/
@[ext] structure Table (α : Type) where
  entries : List (String × α)
  ordered : (entries.map Prod.fst).Pairwise (· < ·)
  deriving DecidableEq

namespace Table

variable {α : Type}

/-- The table without entries. -/
def empty : Table α := ⟨[], .nil⟩

/-! ## Insertion -/

/-- Puts an entry before the first one with a greater name, or in the place of its own name. -/
def insertEntry (name : String) (value : α) : List (String × α) → List (String × α)
  | [] => [(name, value)]
  | (other, old) :: rest =>
    if name = other then (name, value) :: rest
    else if name < other then (name, value) :: (other, old) :: rest
    else (other, old) :: insertEntry name value rest

section Insertion

variable {name : String} {value : α} {entries : List (String × α)} {entry : String × α}

theorem mem_of_mem_insertEntry (h : entry ∈ insertEntry name value entries) :
    entry = (name, value) ∨ entry ∈ entries := by
  induction entries with
  | nil => exact .inl (List.mem_singleton.1 h)
  | cons first rest ih =>
    unfold insertEntry at h
    split at h
    · rcases List.mem_cons.1 h with rfl | h
      · exact .inl rfl
      · exact .inr (List.mem_cons_of_mem _ h)
    · split at h
      · exact List.mem_cons.1 h
      · rcases List.mem_cons.1 h with rfl | h
        · exact .inr List.mem_cons_self
        · exact (ih h).imp_right (List.mem_cons_of_mem _)

/-- An insertion keeps the order. -/
theorem pairwise_insertEntry (name : String) (value : α)
    (h : (entries.map Prod.fst).Pairwise (· < ·)) :
    ((insertEntry name value entries).map Prod.fst).Pairwise (· < ·) := by
  induction entries with
  | nil => simp [insertEntry]
  | cons first rest ih =>
    obtain ⟨hfirst, hrest⟩ := List.pairwise_cons.1 h
    unfold insertEntry
    split
    · next hname => exact List.pairwise_cons.2 ⟨hname ▸ hfirst, hrest⟩
    · next hname =>
      split
      · next hlt =>
        refine List.pairwise_cons.2 ⟨fun other hother => ?_, h⟩
        rcases List.mem_cons.1 hother with rfl | hother
        · exact hlt
        · exact String.lt_trans hlt (hfirst other hother)
      · next hge =>
        refine List.pairwise_cons.2 ⟨fun other hother => ?_, ih hrest⟩
        obtain ⟨entry, hentry, rfl⟩ := List.mem_map.1 hother
        rcases mem_of_mem_insertEntry hentry with rfl | hentry
        -- the new name is neither the first one nor before it
        · refine Decidable.byContradiction fun hle => hname ?_
          exact String.le_antisymm (String.not_lt.1 hle) (String.not_lt.1 hge)
        · exact hfirst entry.1 (List.mem_map_of_mem hentry)

/-- What an insertion does to a look-up. -/
theorem lookup_insertEntry (name other : String) (value : α) (entries : List (String × α)) :
    (insertEntry name value entries).lookup other =
      if other = name then some value else entries.lookup other := by
  by_cases ho : other = name
  · subst ho
    rw [if_pos rfl]
    induction entries with
    | nil => simp [insertEntry]
    | cons entry rest ih =>
      unfold insertEntry
      split
      · simp
      · next hkey =>
        split
        · simp
        · rw [List.lookup_cons, beq_eq_false_iff_ne.2 hkey]
          exact ih
  · rw [if_neg ho]
    have hne := beq_eq_false_iff_ne.2 ho
    induction entries with
    | nil => simp [insertEntry, List.lookup_cons, hne]
    | cons entry rest ih =>
      unfold insertEntry
      split
      · next hkey => rw [List.lookup_cons, List.lookup_cons, ← hkey, hne]
      · split
        · rw [List.lookup_cons, hne]
        · rw [List.lookup_cons, List.lookup_cons, ih]

end Insertion

/-- Sets the value of a name. -/
def insert (table : Table α) (name : String) (value : α) : Table α :=
  ⟨insertEntry name value table.entries, pairwise_insertEntry name value table.ordered⟩

/-- The value of a name. -/
def get? (table : Table α) (name : String) : Option α :=
  table.entries.lookup name

/-- The number of names. -/
def size (table : Table α) : Nat :=
  table.entries.length

/-- The table of a list of entries; of two values for one name the later counts. -/
def ofList (entries : List (String × α)) : Table α :=
  entries.foldl (fun table entry => table.insert entry.1 entry.2) empty

@[simp] theorem get?_empty (name : String) : (empty : Table α).get? name = none := rfl

theorem get?_insert (table : Table α) (name other : String) (value : α) :
    (table.insert name value).get? other =
      if other = name then some value else table.get? other :=
  lookup_insertEntry name other value table.entries

end Table

end GrowthGrammar
