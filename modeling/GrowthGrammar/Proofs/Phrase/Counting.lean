import GrowthGrammar.Proofs.Expression.Lexing
import GrowthGrammar.Proofs.Loop
import GrowthGrammar.Proofs.Phrase.Parameters
import Mathlib.Order.Bounds.Basic

/-!
# Counting parentheses

The scanner can be told as three loops over positions: one goes from symbol to symbol (`Cursor`), one
looks for the end of a group (`Search`), and one splits the inside of a group at its outer commas, by
byte offsets (`Split`). The last two count the groups that are open. Where one would be taken from a
count of zero, or a text be cut where no character begins, the loop would trap. None does: all three
end as the recursion over the characters that they tell (`scan_counts`). A search begins at a marker
that opens a group, so it ends at the first position where the markers are balanced; what it cuts off
is balanced, so the count of the split is never zero at a marker that closes a group.
-/

set_option autoImplicit false

namespace GrowthGrammar.Phrase

open Round (Ends Reaches)

/-! ## Groups by their positions -/

/-- The text from one position up to another, which is left out. -/
def slice (cs : List Char) (first last : Nat) : List Char :=
  (cs.drop first).take (last - first)

/-- The text from one position up to another, if there is one. -/
def slice? (cs : List Char) (first last : Nat) : Option (List Char) :=
  if first ≤ last ∧ last ≤ cs.length then some (slice cs first last) else none

/-- The text from `opening` to `closing`, both included, is balanced. -/
structure IsGroup (cs : List Char) (opening closing : Nat) : Prop where
  opening_le : opening ≤ closing
  closing_lt : closing < cs.length
  balanced : isBalanced 0 (slice cs opening (closing + 1)) = true

/-- The position of the marker that ends a group. -/
def closing? (cs : List Char) (opening : Nat) : Option Nat :=
  (takeGroup 0 (cs.drop (opening + 1))).map fun group => opening + 1 + group.1.length

section Groups

variable {cs rest : List Char} {opening closing position : Nat} {c : Char}

theorem getElem?_of_drop (h : cs.drop position = c :: rest) : cs[position]? = some c := by
  rw [← List.head?_drop, h, List.head?_cons]

theorem drop_succ_of_drop (h : cs.drop position = c :: rest) : cs.drop (position + 1) = rest := by
  rw [← List.drop_drop, h, List.drop_succ_cons, List.drop_zero]

theorem slice?_of_drop {text back : List Char} (h : cs.drop position = text ++ c :: back) :
    slice? cs position (position + text.length) = some text := by
  have hlength := congrArg List.length h
  simp only [List.length_drop, List.length_append, List.length_cons] at hlength
  have hbounds : position ≤ position + text.length ∧ position + text.length ≤ cs.length := by
    omega
  rw [slice?, if_pos hbounds, slice, h, Nat.add_sub_cancel_left, List.take_left]

/-- A text that closes one group more than it opens has a marker at which it does so, behind the
inside of that group. -/
theorem exists_inside_of_isBalanced {depth : Nat} {text : List Char}
    (h : isBalanced (depth + 1) text = true) :
    ∃ inside after, text = inside ++ ')' :: after ∧ isBalanced depth inside = true := by
  induction text generalizing depth with
  | nil => simp [isBalanced] at h
  | cons c text ih =>
      rcases marker_cases c with rfl | rfl | hc
      · rw [isBalanced_open] at h
        obtain ⟨inside, after, rfl, hinside⟩ := ih h
        exact ⟨'(' :: inside, after, rfl, by rwa [isBalanced_open]⟩
      · rw [isBalanced_close] at h
        cases depth with
        | zero => exact ⟨[], text, rfl, rfl⟩
        | succ depth =>
            obtain ⟨inside, after, rfl, hinside⟩ := ih h
            exact ⟨')' :: inside, after, rfl, by rwa [isBalanced_close]⟩
      · rw [isBalanced_cons text hc] at h
        obtain ⟨inside, after, rfl, hinside⟩ := ih h
        exact ⟨c :: inside, after, rfl, by rwa [isBalanced_cons inside hc]⟩

/-- A group that begins with its opening marker is balanced if the text behind the marker closes
what the marker has opened. -/
theorem isGroup_iff (hopening : cs.drop opening = '(' :: rest) :
    IsGroup cs opening closing ↔ opening ≤ closing ∧ closing < cs.length ∧
      isBalanced 1 (rest.take (closing - opening)) = true := by
  have hslice (hle : opening ≤ closing) :
      slice cs opening (closing + 1) = '(' :: rest.take (closing - opening) := by
    rw [slice, hopening, Nat.succ_sub hle, List.take_succ_cons]
  constructor
  · rintro ⟨hle, hlt, hbalanced⟩
    rw [hslice hle, isBalanced_open] at hbalanced
    exact ⟨hle, hlt, hbalanced⟩
  · rintro ⟨hle, hlt, hbalanced⟩
    refine ⟨hle, hlt, ?_⟩
    rwa [hslice hle, isBalanced_open]

/-- Wherever a balanced text ends that begins at a marker, the group of the marker has ended. -/
theorem exists_closing?_le (hopening : cs.drop opening = '(' :: rest)
    (hgroup : IsGroup cs opening closing) : ∃ first ≤ closing, closing? cs opening = some first := by
  obtain ⟨hle, -, hbalanced⟩ := (isGroup_iff hopening).1 hgroup
  obtain ⟨inside, after, htext, hinside⟩ := exists_inside_of_isBalanced hbalanced
  have hrest : rest = inside ++ ')' :: (after ++ rest.drop (closing - opening)) := by
    have hjoin := List.take_append_drop (closing - opening) rest
    rw [htext] at hjoin
    simpa using hjoin.symm
  refine ⟨opening + 1 + inside.length, ?_, ?_⟩
  · have hlength := congrArg List.length htext
    simp only [List.length_take, List.length_append, List.length_cons] at hlength
    omega
  · rw [closing?, drop_succ_of_drop hopening, hrest, takeGroup_append _ hinside]
    rfl

theorem isGroup_of_closing? (hopening : cs.drop opening = '(' :: rest)
    (hclosing : closing? cs opening = some closing) : IsGroup cs opening closing := by
  rw [closing?, drop_succ_of_drop hopening] at hclosing
  obtain ⟨⟨inside, after⟩, htake, rfl⟩ := Option.map_eq_some_iff.1 hclosing
  have hrest := append_of_takeGroup htake
  have hlength : rest.length = cs.length - (opening + 1) := by
    rw [← drop_succ_of_drop hopening, List.length_drop]
  rw [isGroup_iff hopening]
  refine ⟨by omega, ?_, ?_⟩
  · rw [← hrest] at hlength
    simp only [List.length_append, List.length_cons] at hlength ⊢
    omega
  · have htaken : rest.take (opening + 1 + inside.length - opening) = inside ++ [')'] := by
      rw [← hrest]
      have hindex : opening + 1 + inside.length - opening = inside.length + 1 := by omega
      rw [hindex, List.take_length_add_append]
      rfl
    rw [htaken]
    exact isBalanced_append 1 [')'] (isBalanced_of_takeGroup htake)

/-- The marker that ends a group is at the first position where the markers are balanced. -/
theorem closing?_eq_some_iff (hopening : cs.drop opening = '(' :: rest) :
    closing? cs opening = some closing ↔ IsLeast {last | IsGroup cs opening last} closing := by
  have hleast {first : Nat} (hfirst : closing? cs opening = some first) :
      IsLeast {last | IsGroup cs opening last} first := by
    refine ⟨isGroup_of_closing? hopening hfirst, ?_⟩
    intro last hlast
    obtain ⟨other, hle, hother⟩ := exists_closing?_le hopening hlast
    rw [hfirst] at hother
    cases hother
    exact hle
  constructor
  · exact hleast
  · intro hclosing
    obtain ⟨first, -, hfirst⟩ := exists_closing?_le hopening hclosing.1
    rw [hfirst, (hleast hfirst).unique hclosing]

theorem closing?_eq_none_iff (hopening : cs.drop opening = '(' :: rest) :
    closing? cs opening = none ↔ ∀ last, ¬IsGroup cs opening last := by
  constructor
  · intro hnone last hlast
    obtain ⟨first, -, hfirst⟩ := exists_closing?_le hopening hlast
    rw [hnone] at hfirst
    cases hfirst
  · intro hgroups
    rw [Option.eq_none_iff_forall_ne_some]
    intro closing hclosing
    exact hgroups closing (isGroup_of_closing? hopening hclosing)

end Groups

/-! ## The search for the end of a group -/

/-- Where the search for the end of a group stands. -/
structure Search where
  position : Nat
  /-- The number of groups that are open before this position. -/
  depth : Nat := 0

namespace Search

/-- One round of the search. It ends at a marker that closes the last group. -/
def round (cs : List Char) (search : Search) : Round Search (Option Nat) :=
  match cs[search.position]? with
  | none => .done none
  | some c =>
    if c = '(' then .next ⟨search.position + 1, search.depth + 1⟩
    else if c = ')' then
      match search.depth with
      | 0 => .trap
      | 1 => .done (some search.position)
      | depth + 2 => .next ⟨search.position + 1, depth + 1⟩
    else .next ⟨search.position + 1, search.depth⟩

variable {cs rest : List Char} {position depth opening : Nat} {search : Search} {c : Char}

/-- A search that does not trap has a group to close where a marker closes one. -/
theorem depth_pos_of_ne_trap (h : search.round cs ≠ .trap)
    (hclose : cs[search.position]? = some ')') : 0 < search.depth := by
  rw [Nat.pos_iff_ne_zero]
  intro hdepth
  apply h
  unfold round
  rw [hclose, hdepth]
  rfl

/-- Inside of a group, the search ends where the group does. -/
theorem ends_inside (hrest : cs.drop position = rest) :
    Ends (round cs) ⟨position, depth + 1⟩
      ((takeGroup depth rest).map fun group => position + group.1.length) := by
  induction rest generalizing position depth with
  | nil =>
      have hend : cs[position]? = none := List.getElem?_eq_none (List.drop_eq_nil_iff.1 hrest)
      apply Ends.of_done
      simp only [round, hend]
      rfl
  | cons c rest ih =>
      have hc := getElem?_of_drop hrest
      have hnext := drop_succ_of_drop hrest
      -- unless the group ends here, the search goes on, and what is inside has one character more
      have hmore {d : Nat} (hround : round cs ⟨position, depth + 1⟩ = .next ⟨position + 1, d + 1⟩) :
          Ends (round cs) ⟨position, depth + 1⟩
            (((takeGroup d rest).map fun group => (c :: group.1, group.2)).map
              fun group => position + group.1.length) := by
        have hposition : ((fun group => position + group.1.length) ∘
            fun group => (c :: group.1, group.2)) =
            fun group : List Char × List Char => position + 1 + group.1.length := by
          funext group
          simp only [Function.comp_apply, List.length_cons]
          omega
        rw [Option.map_map, hposition]
        exact Ends.of_next hround (ih hnext)
      rcases marker_cases c with rfl | rfl | hmarker
      · rw [takeGroup_open]
        exact hmore (by simp [round, hc])
      · cases depth with
        | zero =>
            apply Ends.of_done
            simp [round, hc, takeGroup]
        | succ depth =>
            rw [takeGroup_close]
            exact hmore (by simp [round, hc])
      · rw [takeGroup_cons rest hmarker]
        obtain ⟨hopen, hclose⟩ : c ≠ '(' ∧ c ≠ ')' := by simpa [isMarker] using hmarker
        exact hmore (by simp [round, hc, hopen, hclose])

/-- From the marker that opens a group, the search ends where the group does. -/
theorem ends_closing? (hopening : cs[opening]? = some '(') :
    Ends (round cs) ⟨opening, 0⟩ (closing? cs opening) := by
  have hround : round cs ⟨opening, 0⟩ = .next ⟨opening + 1, 0 + 1⟩ := by simp [round, hopening]
  exact Ends.of_next hround (ends_inside rfl)

/-- What the search that begins at a position has to do: it begins at a marker that opens a group,
it has a group to close wherever a marker closes one, and it ends at the first position where the
markers are balanced, or without one if they never are. -/
structure IsExact (cs : List Char) (opening : Nat) : Prop where
  begins : cs[opening]? = some '('
  ends : Ends (round cs) ⟨opening, 0⟩ (closing? cs opening)
  counted : ∀ search, Reaches (round cs) ⟨opening, 0⟩ search →
    cs[search.position]? = some ')' → 0 < search.depth
  some_iff : ∀ closing, closing? cs opening = some closing ↔
    IsLeast {last | IsGroup cs opening last} closing
  none_iff : closing? cs opening = none ↔ ∀ last, ¬IsGroup cs opening last

theorem isExact_of_opening (hopening : cs[opening]? = some '(') : IsExact cs opening := by
  have hends := ends_closing? hopening
  obtain ⟨rest, hrest⟩ : ∃ rest, cs.drop opening = '(' :: rest := by
    rwa [← List.head?_drop, List.head?_eq_some_iff] at hopening
  refine ⟨hopening, hends, ?_, fun _ => closing?_eq_some_iff hrest, closing?_eq_none_iff hrest⟩
  intro search hsearch
  exact depth_pos_of_ne_trap (hends.ne_trap hsearch)

end Search

/-! ## The scan by positions -/

/-- Where a scan stands. -/
structure Cursor where
  position : Nat := 0
  /-- The characters before this position that are not yet a symbol. -/
  candidate : List Char := []
  /-- The items found before. -/
  items : List Item := []

namespace Cursor

/-- The position at which a search for the end of a group begins: right behind the next character,
if a group is opened there. -/
def opening? (cs : List Char) (cursor : Cursor) : Option Nat :=
  if cs[cursor.position + 1]? = some '(' then some (cursor.position + 1) else none

/-- One round of the scan: one more character, with the group behind it if there is one. -/
def round (knows : String → Bool) (cs : List Char) (cursor : Cursor) :
    Round Cursor (Except Fault (List Item)) :=
  match cs[cursor.position]? with
  | none =>
    .done (if cursor.candidate.isEmpty then .ok cursor.items
      else .error (.candidate cursor.candidate))
  | some c =>
    if cursor.candidate.isEmpty && isMarker c then .done (.error (.marker cursor.position))
    else
      let grown := cursor.candidate ++ [c]
      let symbol := String.ofList grown
      match cursor.opening? cs with
      | some opening =>
        match closing? cs opening with
        | none => .done (.error (.marker opening))
        | some closing =>
          match slice? cs (opening + 1) closing with
          | none => .trap
          | some inside =>
            if knows symbol then
              .next ⟨closing + 1, [], cursor.items ++ [⟨symbol, some (String.ofList inside)⟩]⟩
            else .done (.error (.candidate grown))
      | none =>
        if knows symbol then .next ⟨cursor.position + 1, [], cursor.items ++ [⟨symbol, none⟩]⟩
        else .next ⟨cursor.position + 1, grown, cursor.items⟩

theorem getElem?_of_opening? {cs : List Char} {cursor : Cursor} {opening : Nat}
    (h : cursor.opening? cs = some opening) : cs[opening]? = some '(' := by
  unfold opening? at h
  split at h
  · next hopening =>
    cases h
    exact hopening
  · cases h

section Rounds

variable (knows : String → Bool) {cs candidate group inside after rest : List Char}
  {position : Nat} (items : List Item) {c : Char}

theorem opening?_of_group (hrest : cs.drop position = c :: '(' :: group) :
    opening? cs ⟨position, candidate, items⟩ = some (position + 1) :=
  if_pos (getElem?_of_drop (drop_succ_of_drop hrest))

theorem opening?_of_plain (hrest : cs.drop position = c :: rest)
    (hplain : ∀ group, rest ≠ '(' :: group) :
    opening? cs ⟨position, candidate, items⟩ = none := by
  apply if_neg
  rw [← List.head?_drop, drop_succ_of_drop hrest, List.head?_eq_some_iff]
  rintro ⟨group, hgroup⟩
  exact hplain group hgroup

/-- The group behind a character ends where it does when it is taken off. -/
theorem closing?_of_group (hrest : cs.drop position = c :: '(' :: group) :
    closing? cs (position + 1) =
      (takeGroup 0 group).map fun found => position + 2 + found.1.length := by
  rw [closing?, drop_succ_of_drop (drop_succ_of_drop hrest)]

theorem round_group (hrest : cs.drop position = c :: '(' :: group)
    (hmarker : ¬(candidate.isEmpty && isMarker c) = true)
    (hgroup : takeGroup 0 group = some (inside, after)) :
    round knows cs ⟨position, candidate, items⟩ =
      if knows (String.ofList (candidate ++ [c])) then
        .next ⟨position + inside.length + 3, [],
          items ++ [⟨String.ofList (candidate ++ [c]), some (String.ofList inside)⟩]⟩
      else .done (.error (.candidate (candidate ++ [c]))) := by
  have hclosing := closing?_of_group hrest
  rw [hgroup, Option.map_some] at hclosing
  have hinside := drop_succ_of_drop (drop_succ_of_drop hrest)
  rw [← append_of_takeGroup hgroup] at hinside
  have hnext : position + 2 + inside.length + 1 = position + inside.length + 3 := by omega
  simp only [round, getElem?_of_drop hrest, if_neg hmarker, opening?_of_group items hrest, hclosing,
    slice?_of_drop hinside, hnext]

theorem round_plain (hrest : cs.drop position = c :: rest)
    (hmarker : ¬(candidate.isEmpty && isMarker c) = true)
    (hplain : ∀ group, rest ≠ '(' :: group) :
    round knows cs ⟨position, candidate, items⟩ =
      if knows (String.ofList (candidate ++ [c])) then
        .next ⟨position + 1, [], items ++ [⟨String.ofList (candidate ++ [c]), none⟩]⟩
      else .next ⟨position + 1, candidate ++ [c], items⟩ := by
  simp only [round, getElem?_of_drop hrest, if_neg hmarker, opening?_of_plain items hrest hplain]

/-- Behind a group the text goes on with what is left of it. -/
theorem drop_of_group (hrest : cs.drop position = c :: '(' :: group)
    (hgroup : takeGroup 0 group = some (inside, after)) :
    cs.drop (position + inside.length + 3) = after := by
  have hinside := drop_succ_of_drop (drop_succ_of_drop hrest)
  rw [← append_of_takeGroup hgroup] at hinside
  have hposition : position + inside.length + 3 = position + 1 + 1 + (inside.length + 1) := by
    omega
  rw [hposition, ← List.drop_drop, hinside, List.drop_length_add_append]
  rfl

/-- Whether an item is put behind those found before or in front of those found later, they are the
same items. -/
theorem map_append_cons (items : List Item) (item : Item) (later : Except Fault (List Item)) :
    (later >>= fun found => pure (item :: found)).map (items ++ ·) =
      later.map (items ++ [item] ++ ·) := by
  cases later with
  | error fault => rfl
  | ok found => exact congrArg Except.ok (List.append_cons items item found)

end Rounds

/-- By positions, the scan ends as it does character by character. -/
theorem ends_scanFrom (knows : String → Bool) {cs : List Char} (position : Nat)
    (candidate rest : List Char) :
    cs.drop position = rest → ∀ items, Ends (round knows cs) ⟨position, candidate, items⟩
      ((scanFrom knows position candidate rest).map (items ++ ·)) := by
  fun_induction scanFrom knows position candidate rest with
  | case1 position candidate hempty =>
      intro hrest items
      have hend : cs[position]? = none := List.getElem?_eq_none (List.drop_eq_nil_iff.1 hrest)
      apply Ends.of_done
      simp [round, hend, hempty, Except.map]
  | case2 position candidate hne =>
      intro hrest items
      have hend : cs[position]? = none := List.getElem?_eq_none (List.drop_eq_nil_iff.1 hrest)
      apply Ends.of_done
      simp [round, hend, hne, Except.map]
  | case3 position candidate c rest hmarker =>
      intro hrest items
      apply Ends.of_done
      simp [round, getElem?_of_drop hrest, hmarker, Except.map]
  | case4 position candidate c hmarker group hgroup =>
      intro hrest items
      have hclosing := closing?_of_group hrest
      rw [hgroup] at hclosing
      apply Ends.of_done
      simp [round, getElem?_of_drop hrest, hmarker, opening?_of_group items hrest, hclosing,
        Except.map]
  | case5 position candidate c hmarker grown symbol group inside after hgroup hknown ih =>
      intro hrest items
      have hround := round_group knows items hrest hmarker hgroup
      rw [if_pos hknown] at hround
      have hends := ih (drop_of_group hrest hgroup)
        (items ++ [⟨symbol, some (String.ofList inside)⟩])
      rw [map_append_cons]
      exact Ends.of_next hround hends
  | case6 position candidate c hmarker grown symbol group inside after hgroup hunknown =>
      intro hrest items
      have hround := round_group knows items hrest hmarker hgroup
      rw [if_neg hunknown] at hround
      exact Ends.of_done hround
  | case7 position candidate c hmarker grown symbol after hafter hknown ih =>
      intro hrest items
      have hround := round_plain knows items hrest hmarker hafter
      rw [if_pos hknown] at hround
      have hends := ih (drop_succ_of_drop hrest) (items ++ [⟨symbol, none⟩])
      rw [map_append_cons]
      exact Ends.of_next hround hends
  | case8 position candidate c hmarker grown symbol after hafter hunknown ih =>
      intro hrest items
      have hround := round_plain knows items hrest hmarker hafter
      rw [if_neg hunknown] at hround
      exact Ends.of_next hround (ih (drop_succ_of_drop hrest) items)

end Cursor

/-! ## The split by byte offsets -/

/-- The first so many bytes of a text and the rest of it, if no character stands across. -/
def splitBytes? : Nat → List Char → Option (List Char × List Char)
  | 0, cs => some ([], cs)
  | _ + 1, [] => none
  | count + 1, c :: rest =>
    if c.utf8Size ≤ count + 1 then
      (splitBytes? (count + 1 - c.utf8Size) rest).map fun (front, back) => (c :: front, back)
    else none

/-- The text from one byte offset up to another, if characters begin at both. -/
def byteSlice? (cs : List Char) (first last : Nat) : Option (List Char) :=
  if first ≤ last then do
    let (_, behind) ← splitBytes? first cs
    let (text, _) ← splitBytes? (last - first) behind
    return text
  else none

theorem splitBytes?_append (front back : List Char) :
    splitBytes? (byteSize front) (front ++ back) = some (front, back) := by
  induction front with
  | nil => rw [List.nil_append, byteSize, splitBytes?]
  | cons c front ih =>
      obtain ⟨count, hcount⟩ : ∃ count, byteSize (c :: front) = count + 1 :=
        Nat.exists_eq_add_one.2 (byteSize_pos (List.cons_ne_nil c front))
      have hsize : byteSize (c :: front) = c.utf8Size + byteSize front := rfl
      have hle : c.utf8Size ≤ count + 1 := by omega
      have hless : count + 1 - c.utf8Size = byteSize front := by omega
      rw [hcount, List.cons_append, splitBytes?, if_pos hle, hless, ih]
      rfl

theorem byteSlice?_append (front text back : List Char) :
    byteSlice? (front ++ (text ++ back)) (byteSize front) (byteSize front + byteSize text) =
      some text := by
  rw [byteSlice?, if_pos (Nat.le_add_right _ _), Nat.add_sub_cancel_left, splitBytes?_append]
  show (splitBytes? (byteSize text) (text ++ back) >>= fun (text, _) => some text) = some text
  rw [splitBytes?_append]
  rfl

/-- Where a split stands. -/
structure Split where
  /-- The characters that are still to be read. -/
  rest : List Char
  /-- The byte offset of the next character. -/
  offset : Nat := 0
  depth : Nat := 0
  /-- The byte offset at which the item begins that is being read. -/
  start : Nat := 0
  items : List (List Char) := []

namespace Split

/-- One round of the split of a text: one more character. -/
def round (raw : List Char) (split : Split) : Round Split (List (List Char)) :=
  match split.rest with
  | [] =>
    match byteSlice? raw split.start (byteSize raw) with
    | none => .trap
    | some item => .done (split.items ++ [item])
  | c :: rest =>
    let offset := split.offset + c.utf8Size
    if c = '(' then .next ⟨rest, offset, split.depth + 1, split.start, split.items⟩
    else if c = ')' then
      match split.depth with
      | 0 => .trap
      | depth + 1 => .next ⟨rest, offset, depth, split.start, split.items⟩
    else if c = ',' ∧ split.depth = 0 then
      match byteSlice? raw split.start split.offset with
      | none => .trap
      | some item =>
        .next ⟨rest, offset, split.depth, split.offset + 1, split.items ++ [item]⟩
    else .next ⟨rest, offset, split.depth, split.start, split.items⟩

variable {raw rest item front first : List Char} {offset depth start : Nat} {split : Split}
  {items more : List (List Char)} {c : Char}

/-- A split that does not trap has a group to close where a marker closes one. -/
theorem depth_pos_of_ne_trap (h : split.round raw ≠ .trap)
    (hclose : split.rest.head? = some ')') : 0 < split.depth := by
  obtain ⟨rest, hrest⟩ := List.head?_eq_some_iff.1 hclose
  rw [Nat.pos_iff_ne_zero]
  intro hdepth
  apply h
  unfold round
  rw [hrest, hdepth]
  rfl

theorem round_comma (hitem : byteSlice? raw start offset = some item) :
    round raw ⟨',' :: rest, offset, 0, start, items⟩ =
      .next ⟨rest, offset + 1, 0, offset + 1, items ++ [item]⟩ := by
  have hsize : Char.utf8Size ',' = 1 := rfl
  simp [round, hitem, hsize]

theorem round_cons (hcomma : ¬(c = ',' ∧ depth = 0)) (hclose : ¬(c = ')' ∧ depth = 0)) :
    round raw ⟨c :: rest, offset, depth, start, items⟩ =
      .next ⟨rest, offset + c.utf8Size, depthAfter depth c, start, items⟩ := by
  rcases marker_cases c with rfl | rfl | hmarker
  · simp [round, depthAfter]
  · cases depth with
    | zero => exact absurd ⟨rfl, rfl⟩ hclose
    | succ depth => simp [round, depthAfter]
  · obtain ⟨hopen, hclose⟩ : c ≠ '(' ∧ c ≠ ')' := by simpa [isMarker] using hmarker
    simp only [round, if_neg hopen, if_neg hclose, if_neg hcomma,
      depthAfter_of_markerFree depth hmarker]

/-- By byte offsets, a balanced text is split as it is character by character. What has been read of
the item at hand stands in front of the first item of the rest. -/
theorem ends_behind (hraw : raw = front ++ (item ++ rest)) (hrest : isBalanced depth rest = true)
    (hsplit : splitParams depth rest = first :: more) :
    Ends (round raw) ⟨rest, byteSize front + byteSize item, depth, byteSize front, items⟩
      (items ++ (item ++ first) :: more) := by
  induction rest generalizing front item depth items first more with
  | nil =>
      obtain ⟨rfl, rfl⟩ := List.cons.inj hsplit
      have hitem : byteSlice? raw (byteSize front) (byteSize raw) = some item := by
        have hlast : byteSize raw = byteSize front + byteSize item := by
          rw [hraw, List.append_nil, byteSize_append]
        rw [hlast, hraw]
        exact byteSlice?_append front item []
      apply Ends.of_done
      simp [round, hitem]
  | cons c rest ih =>
      obtain ⟨hclose, hbelow⟩ := isBalanced_cons_iff.1 hrest
      obtain ⟨next, others, hnext⟩ :=
        List.exists_cons_of_ne_nil (splitParams_ne_nil (depthAfter depth c) rest)
      by_cases hcomma : c = ',' ∧ depth = 0
      · obtain ⟨rfl, rfl⟩ := hcomma
        have hitem : byteSlice? raw (byteSize front) (byteSize front + byteSize item) =
            some item := by
          rw [hraw]
          exact byteSlice?_append front item _
        have hsplit : splitParams 0 (',' :: rest) = first :: more := hsplit
        rw [splitParams_comma] at hsplit
        obtain ⟨rfl, rfl⟩ := List.cons.inj hsplit
        have hfront : raw = (front ++ (item ++ [','])) ++ ([] ++ rest) := by
          simp [hraw]
        have hsize : byteSize (front ++ (item ++ [','])) = byteSize front + byteSize item + 1 := by
          rw [byteSize_append, byteSize_append, Nat.add_assoc]
          rfl
        have hends : Ends (round raw) ⟨rest, byteSize front + byteSize item + 1, 0,
            byteSize front + byteSize item + 1, items ++ [item]⟩
            (items ++ [item] ++ splitParams 0 rest) := by
          rw [← hsize]
          exact hnext ▸ ih hfront hbelow hnext
        rw [List.append_nil, List.append_cons]
        exact Ends.of_next (round_comma hitem) hends
      · rw [splitParams_cons hcomma hnext] at hsplit
        obtain ⟨rfl, rfl⟩ := List.cons.inj hsplit
        have hitem : raw = front ++ ((item ++ [c]) ++ rest) := by rw [hraw, List.append_assoc]; rfl
        have hsize : byteSize front + byteSize item + c.utf8Size =
            byteSize front + byteSize (item ++ [c]) := by
          rw [byteSize_append, ← Nat.add_assoc]
          rfl
        have hends : Ends (round raw) ⟨rest, byteSize front + byteSize item + c.utf8Size,
            depthAfter depth c, byteSize front, items⟩
            (items ++ (item ++ c :: next) :: others) := by
          rw [hsize, List.append_cons item c next]
          exact ih hitem hbelow hnext
        exact Ends.of_next (round_cons hcomma hclose) hends

/-- What the split of the inside of a group has to do: it has a group to close wherever a marker
closes one, its items are parameters, and joined they are the text again. -/
structure IsExact (raw : List Char) : Prop where
  balanced : isBalanced 0 raw = true
  ends : Ends (round raw) { rest := raw } (splitParams 0 raw)
  counted : ∀ split, Reaches (round raw) { rest := raw } split →
    split.rest.head? = some ')' → 0 < split.depth
  parameters : ∀ item ∈ splitParams 0 raw, IsParameter 0 item
  lossless : [','].intercalate (splitParams 0 raw) = raw

/-- A balanced text is split as it should be. -/
theorem isExact_of_isBalanced (hraw : isBalanced 0 raw = true) : IsExact raw := by
  obtain ⟨first, more, hsplit⟩ := List.exists_cons_of_ne_nil (splitParams_ne_nil 0 raw)
  have hends : Ends (round raw) { rest := raw } (splitParams 0 raw) := by
    have hnone : raw = [] ++ ([] ++ raw) := rfl
    rw [hsplit]
    exact ends_behind hnone hraw hsplit
  refine ⟨hraw, hends, ?_, isParameter_of_mem_splitParams hraw, intercalate_splitParams 0 raw⟩
  intro split hsplit
  exact depth_pos_of_ne_trap (hends.ne_trap hsplit)

end Split

/-! ## Counting in a phrase -/

/-- **Parentheses are counted right.** By positions, a phrase is scanned as it is character by
character, so no round of the scan traps. Wherever the scan looks for the end of a group the search
is exact, and whatever stands in a group that has been scanned is split exactly. -/
theorem scan_counts (vocabulary : Vocabulary) (phrase : String) :
    Ends (Cursor.round vocabulary.knows (chars phrase)) {}
        (scanFrom vocabulary.knows 0 [] (chars phrase)) ∧
      (∀ (cursor : Cursor) (opening : Nat), cursor.opening? (chars phrase) = some opening →
        Search.IsExact (chars phrase) opening) ∧
      ∀ items item raw, scan vocabulary phrase = .ok items → item ∈ items → item.raw = some raw →
        Split.IsExact raw.toList := by
  refine ⟨?_, ?_, ?_⟩
  · have hnone : (scanFrom vocabulary.knows 0 [] (chars phrase)).map ([] ++ ·) =
        scanFrom vocabulary.knows 0 [] (chars phrase) := congrFun Except.map_id _
    rw [← hnone]
    exact Cursor.ends_scanFrom vocabulary.knows 0 [] (chars phrase) rfl []
  · intro cursor opening hopening
    exact Search.isExact_of_opening (Cursor.getElem?_of_opening? hopening)
  · intro items item raw hscan hitem hraw
    have hwell := (scan_eq_ok_iff.1 hscan).wellFormed item hitem
    exact Split.isExact_of_isBalanced (hwell.balanced raw hraw)

/-- The group behind `F` ends at the last character of the phrase, and its inside is split at the
last comma. -/
theorem scan_counts_nested :
    IsLeast {last | IsGroup (chars "F((1+n)*2,n)") 1 last} 11 ∧
      Split.IsExact "(1+n)*2,n".toList := by
  obtain ⟨-, hsearch, hsplit⟩ := scan_counts ⟨latinCapitals, drawingMarks⟩ "F((1+n)*2,n)"
  have hscan : scan ⟨latinCapitals, drawingMarks⟩ "F((1+n)*2,n)" =
      .ok [⟨"F", some "(1+n)*2,n"⟩] :=
    Outcome.toOption_eq_some_iff.1 (by decide +kernel)
  exact ⟨((hsearch {} 1 (by decide)).some_iff 11).1 (by decide),
    hsplit _ _ _ hscan List.mem_cons_self rfl⟩

end GrowthGrammar.Phrase
