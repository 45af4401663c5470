/-!
# Parameter groups

A symbol may be followed by a parameter group, a text in parentheses whose inner parentheses are
balanced. `takeGroup` cuts such a group off, `splitParams` splits its inside at the commas that
stand in no inner parentheses. The lemmas say that neither loses a character.
-/

set_option autoImplicit false

namespace GrowthGrammar.Phrase

/-- The inside of a group and the text after its closing marker. The text starts inside the group,
with `depth` inner groups open. None if the group is never closed. -/
def takeGroup (depth : Nat) : List Char → Option (List Char × List Char)
  | [] => none
  | c :: rest =>
    if c = '(' then (takeGroup (depth + 1) rest).map fun (inside, after) => (c :: inside, after)
    else if c = ')' then
      match depth with
      | 0 => some ([], rest)
      | depth + 1 => (takeGroup depth rest).map fun (inside, after) => (c :: inside, after)
    else (takeGroup depth rest).map fun (inside, after) => (c :: inside, after)

/-- The number of open inner groups after one more character. -/
def depthAfter (depth : Nat) (c : Char) : Nat :=
  if c = '(' then depth + 1 else if c = ')' then depth - 1 else depth

/-- Splits at the commas outside inner groups; `depth` inner groups are open at the start. There is
one item more than there are such commas. -/
def splitParams (depth : Nat) : List Char → List (List Char)
  | [] => [[]]
  | c :: rest =>
    if c = ',' ∧ depth = 0 then [] :: splitParams depth rest
    else
      match splitParams (depthAfter depth c) rest with
      | [] => [[c]]
      | first :: items => (c :: first) :: items

/-- A group ends at a closing marker, and cutting it off loses no character. -/
theorem append_of_takeGroup {depth : Nat} {cs inside after : List Char}
    (h : takeGroup depth cs = some (inside, after)) : inside ++ ')' :: after = cs := by
  induction cs generalizing depth inside after with
  | nil => cases h
  | cons c rest ih =>
    unfold takeGroup at h
    split at h
    · obtain ⟨⟨inside', after'⟩, hrest, heq⟩ := Option.map_eq_some_iff.1 h
      obtain ⟨rfl, rfl⟩ := Prod.mk.inj heq
      simp [ih hrest]
    · split at h
      · next hclose =>
        subst hclose
        split at h
        · obtain ⟨rfl, rfl⟩ := Prod.mk.inj (Option.some.inj h)
          rfl
        · obtain ⟨⟨inside', after'⟩, hrest, heq⟩ := Option.map_eq_some_iff.1 h
          obtain ⟨rfl, rfl⟩ := Prod.mk.inj heq
          simp [ih hrest]
      · obtain ⟨⟨inside', after'⟩, hrest, heq⟩ := Option.map_eq_some_iff.1 h
        obtain ⟨rfl, rfl⟩ := Prod.mk.inj heq
        simp [ih hrest]

theorem length_lt_of_takeGroup {depth : Nat} {cs inside after : List Char}
    (h : takeGroup depth cs = some (inside, after)) : after.length < cs.length := by
  have hlen := congrArg List.length (append_of_takeGroup h)
  simp only [List.length_append, List.length_cons] at hlen
  omega

theorem splitParams_ne_nil (depth : Nat) (cs : List Char) : splitParams depth cs ≠ [] := by
  cases cs with
  | nil => simp [splitParams]
  | cons c rest =>
    unfold splitParams
    split
    · simp
    · split <;> simp

/-- The items with a comma between each two are the text. -/
theorem intercalate_splitParams (depth : Nat) (cs : List Char) :
    [','].intercalate (splitParams depth cs) = cs := by
  induction cs generalizing depth with
  | nil => rfl
  | cons c rest ih =>
    unfold splitParams
    split
    · next h =>
      have := ih depth
      cases hs : splitParams depth rest with
      | nil => exact absurd hs (splitParams_ne_nil depth rest)
      | cons first items =>
        rw [hs] at this
        simp only [List.intercalate, List.intersperse, List.flatten_cons, List.nil_append,
          List.cons_append] at this ⊢
        rw [this, h.1]
    · have := ih (depthAfter depth c)
      split
      · next h => exact absurd h (splitParams_ne_nil _ rest)
      · next first items hs =>
        rw [hs] at this
        cases items with
        | nil => simpa [List.intercalate] using this
        | cons second items =>
          simp only [List.intercalate, List.intersperse, List.flatten_cons, List.cons_append]
            at this ⊢
          rw [this]

/-- A list of texts has no characters but theirs and the commas between them. -/
theorem mem_or_mem_of_mem_intercalate {c : Char} {texts : List (List Char)}
    (h : c ∈ [','].intercalate texts) : c = ',' ∨ ∃ text ∈ texts, c ∈ text := by
  induction texts with
  | nil => cases h
  | cons text texts ih =>
      cases texts with
      | nil =>
          rw [List.intercalate_singleton] at h
          exact .inr ⟨text, List.mem_cons_self, h⟩
      | cons next texts =>
          rw [List.intercalate_cons_cons] at h
          rcases List.mem_append.1 h with h | h
          · rcases List.mem_append.1 h with h | h
            · exact .inr ⟨text, List.mem_cons_self, h⟩
            · exact .inl (List.mem_singleton.1 h)
          · obtain hc | ⟨t, ht, hc⟩ := ih h
            · exact .inl hc
            · exact .inr ⟨t, List.mem_cons_of_mem _ ht, hc⟩

end GrowthGrammar.Phrase
