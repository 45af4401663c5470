import GrowthGrammar.Json.Reading
import GrowthGrammar.Proofs.Json.Number
import GrowthGrammar.Proofs.Json.Quoted

/-!
# JSON texts are read as what they spell

`Spells` says how a text spells a value, with gaps of spaces and line breaks wherever JSON allows
them. The reader is directed by a spelling: a bracket, a brace, a quote or the start of a numeral
tells it what comes, and what follows a numeral cannot go on with it. So a text that spells a value
is read as the document of that value, whatever the gaps are (`read?_of_spells`). The fuel is
enough because each step down consumes a character.
-/

set_option autoImplicit false

namespace GrowthGrammar.Json

open Decimal (Ends)

/-! ## Gaps -/

/-- A space or a line break. -/
def isSpace (c : Char) : Bool :=
  c == ' ' || c == '\t' || c == '\n' || c == '\r'

/-- Spaces and line breaks only. -/
def IsGap (cs : List Char) : Prop :=
  ∀ c ∈ cs, isSpace c = true

variable {gap before middle after cs behind rest : List Char}

/-! ## Spellings -/

mutual

/-- How a text spells a value at its start, up to the rest. Between the parts of lists and objects
there may be gaps. -/
inductive Spells : Json → List Char → List Char → Prop where
  | number (value : Float) {rest : List Char} (hrest : Ends rest) :
      Spells (.number value) (numeral value ++ rest) rest
  | string (text : String) (rest : List Char) : Spells (.string text) (quote text ++ rest) rest
  | emptyArray {gap : List Char} (hgap : IsGap gap) (rest : List Char) :
      Spells (.array []) ('[' :: (gap ++ ']' :: rest)) rest
  | array {items : List Json} {cs rest : List Char} (hitems : SpellsItems items cs rest) :
      Spells (.array items) ('[' :: cs) rest
  | emptyObject {gap : List Char} (hgap : IsGap gap) (rest : List Char) :
      Spells (.object []) ('\x7b' :: (gap ++ '\x7d' :: rest)) rest
  | object {members : List (String × Json)} {cs rest : List Char}
      (hmembers : SpellsMembers members cs rest) : Spells (.object members) ('\x7b' :: cs) rest

/-- One or more items and the closing bracket. -/
inductive SpellsItems : List Json → List Char → List Char → Prop where
  | last {item : Json} {before cs after rest : List Char} (hbefore : IsGap before)
      (hitem : Spells item cs (after ++ ']' :: rest)) (hafter : IsGap after) :
      SpellsItems [item] (before ++ cs) rest
  | more {item : Json} {items : List Json} {before cs after behind rest : List Char}
      (hbefore : IsGap before) (hitem : Spells item cs (after ++ ',' :: behind))
      (hafter : IsGap after) (hitems : SpellsItems items behind rest) :
      SpellsItems (item :: items) (before ++ cs) rest

/-- One or more members and the closing brace. -/
inductive SpellsMembers : List (String × Json) → List Char → List Char → Prop where
  | last {name : String} {value : Json} {before middle gap cs after rest : List Char}
      (hbefore : IsGap before) (hmiddle : IsGap middle) (hgap : IsGap gap)
      (hvalue : Spells value cs (after ++ '\x7d' :: rest)) (hafter : IsGap after) :
      SpellsMembers [(name, value)] (before ++ (quote name ++ (middle ++ ':' :: (gap ++ cs)))) rest
  | more {name : String} {value : Json} {members : List (String × Json)}
      {before middle gap cs after behind rest : List Char}
      (hbefore : IsGap before) (hmiddle : IsGap middle) (hgap : IsGap gap)
      (hvalue : Spells value cs (after ++ ',' :: behind)) (hafter : IsGap after)
      (hmembers : SpellsMembers members behind rest) :
      SpellsMembers ((name, value) :: members)
        (before ++ (quote name ++ (middle ++ ':' :: (gap ++ cs)))) rest

end

/-! ## Scalars -/

/-- A numeral starts with neither a space nor a bracket nor a brace. -/
theorem exists_numeral_cons (x : Float) :
    ∃ c behind, numeral x = c :: behind ∧ isSpace c = false ∧
      (c ≠ '[' ∧ c ≠ '\x7b') ∧ c ≠ ']' ∧ c ≠ '\x7d' := by
  by_cases hx : x.isFinite = true
  · obtain ⟨l, hnumeral, htext, -⟩ := exists_numeral_of_isFinite hx
    obtain ⟨d, behind, hcons, hd⟩ := hnumeral.isWritten.exists_digit
    rw [numeral, if_pos hx, numberLayout.write_of_isFinite hx, ← htext, hcons]
    split
    · exact ⟨'-', _, rfl, by decide⟩
    · have hne : ∀ c : Char, c.isDigit = false → (d == c) = false :=
        fun c hc => beq_eq_false_iff_ne.2 (Decimal.ne_of_isDigit hd hc)
      refine ⟨d, _, rfl, ?_, ⟨Decimal.ne_of_isDigit hd rfl, Decimal.ne_of_isDigit hd rfl⟩,
        Decimal.ne_of_isDigit hd rfl, Decimal.ne_of_isDigit hd rfl⟩
      rw [isSpace, hne ' ' rfl, hne '\t' rfl, hne '\n' rfl, hne '\r' rfl]
      rfl
  · rw [numeral, if_neg hx]
    exact ⟨'n', _, rfl, by decide⟩

/-- A text that starts with a digit is read as a number. -/
theorem scanScalar_of_isDigit {c : Char} (hc : c.isDigit = true) (cs : List Char) :
    scanScalar (c :: cs) = scanNumber false (c :: cs) := by
  have hne : ∀ d : Char, d.isDigit = false → ∀ rest, c :: cs = d :: rest → False :=
    fun d hd rest heq => Decimal.ne_of_isDigit hc hd (List.cons.inj heq).1
  rw [scanScalar]
  · exact hne '"' rfl
  · exact hne 'n' rfl
  · exact hne 't' rfl
  · exact hne 'f' rfl
  · exact hne '-' rfl

/-- The readings of a number. -/
def numberReadings (x : Float) : Scalar :=
  if x.isFinite then { number := numeralValue? x } else { isNull := some true }

/-- A numeral is read as a whole. -/
theorem scanScalar_numeral (x : Float) (hrest : Ends rest) :
    scanScalar (numeral x ++ rest) = some (.scalar (numberReadings x), rest) := by
  by_cases hx : x.isFinite = true
  · obtain ⟨l, hnumeral, htext, -⟩ := exists_numeral_of_isFinite hx
    have hscan := scanNumeral_append hnumeral hrest
    have hvalue := numeralValue?_eq hx (literal?_eq hnumeral htext)
    rw [numeral, if_pos hx, numberLayout.write_of_isFinite hx, ← htext, numberReadings, if_pos hx,
      hvalue]
    cases hneg : Decimal.isNegative x with
    | true =>
        rw [if_pos rfl, List.singleton_append, List.cons_append, scanScalar, scanNumber, hscan]
        rfl
    | false =>
        obtain ⟨d, behind, hcons, hd⟩ := hnumeral.isWritten.exists_digit
        rw [hcons, List.cons_append] at hscan
        rw [if_neg Bool.false_ne_true, List.nil_append, hcons, List.cons_append,
          scanScalar_of_isDigit hd, scanNumber, hscan]
        rfl
  · rw [numeral, if_neg hx, numberReadings, if_neg hx]
    rfl

theorem scanScalar_quote (text : String) (rest : List Char) :
    scanScalar (quote text ++ rest) = some (.scalar { text := some text }, rest) := by
  have hscan := scanString_quote text rest
  rw [quote, List.cons_append, List.append_assoc, List.singleton_append, scanScalar, hscan]
  rfl

/-! ## Lengths and heads -/

mutual

theorem Spells.length_lt {value : Json} {cs rest : List Char} :
    Spells value cs rest → rest.length < cs.length
  | .number value hrest => by
      obtain ⟨c, behind, hcons, -⟩ := exists_numeral_cons value
      rw [hcons, List.length_append, List.length_cons]
      omega
  | .string text rest => by
      rw [quote, List.length_append, List.length_cons]
      omega
  | .emptyArray hgap rest => by
      rw [List.length_cons, List.length_append, List.length_cons]
      omega
  | .array hitems => by
      have hlt := hitems.length_lt
      rw [List.length_cons]
      omega
  | .emptyObject hgap rest => by
      rw [List.length_cons, List.length_append, List.length_cons]
      omega
  | .object hmembers => by
      have hlt := hmembers.length_lt
      rw [List.length_cons]
      omega

theorem SpellsItems.length_lt {items : List Json} {cs rest : List Char} :
    SpellsItems items cs rest → rest.length < cs.length
  | .last hbefore hitem hafter => by
      have hlt := hitem.length_lt
      rw [List.length_append, List.length_cons] at hlt
      rw [List.length_append]
      omega
  | .more hbefore hitem hafter hitems => by
      have hlt := hitem.length_lt
      have hbehind := hitems.length_lt
      rw [List.length_append, List.length_cons] at hlt
      rw [List.length_append]
      omega

theorem SpellsMembers.length_lt {members : List (String × Json)} {cs rest : List Char} :
    SpellsMembers members cs rest → rest.length < cs.length
  | .last _ _ _ hvalue _ => by
      have hlt := hvalue.length_lt
      simp only [List.length_append, List.length_cons] at hlt ⊢
      omega
  | .more _ _ _ hvalue _ hmembers => by
      have hlt := hvalue.length_lt
      have hbehind := hmembers.length_lt
      simp only [List.length_append, List.length_cons] at hlt ⊢
      omega

end

/-- A spelling starts with neither a space nor a closing bracket or brace. -/
theorem Spells.exists_head {value : Json} (h : Spells value cs rest) :
    ∃ c behind, cs = c :: behind ∧ isSpace c = false ∧ c ≠ ']' ∧ c ≠ '\x7d' := by
  cases h with
  | number value hrest =>
      obtain ⟨c, behind, hcons, hspace, -, hclosing⟩ := exists_numeral_cons value
      exact ⟨c, behind ++ rest, by rw [hcons, List.cons_append], hspace, hclosing⟩
  | string text rest => exact ⟨'"', _, rfl, by decide⟩
  | emptyArray hgap rest => exact ⟨'[', _, rfl, by decide⟩
  | array hitems => exact ⟨'[', _, rfl, by decide⟩
  | emptyObject hgap rest => exact ⟨'\x7b', _, rfl, by decide⟩
  | object hmembers => exact ⟨'\x7b', _, rfl, by decide⟩

/-! ## Reading -/

theorem skipSpace_append (hgap : IsGap gap) (cs : List Char) :
    skipSpace (gap ++ cs) = skipSpace cs := by
  unfold skipSpace
  exact List.dropWhile_append_of_pos hgap

theorem skipSpace_cons {c : Char} (hc : isSpace c = false) (cs : List Char) :
    skipSpace (c :: cs) = c :: cs := by
  unfold skipSpace
  exact List.dropWhile_cons_of_neg (fun h => Bool.false_ne_true (hc.symm.trans h))

theorem skipSpace_skipSpace (cs : List Char) : skipSpace (skipSpace cs) = skipSpace cs := by
  unfold skipSpace
  exact List.dropWhile_idempotent _ cs

/-- Spaces before a value make no difference. -/
theorem scanValue_skipSpace (fuel : Nat) (cs : List Char) :
    scanValue fuel (skipSpace cs) = scanValue fuel cs := by
  cases fuel with
  | zero => rfl
  | succ fuel => rw [scanValue, scanValue, skipSpace_skipSpace]

theorem scanValue_append (hgap : IsGap gap) (fuel : Nat) (cs : List Char) :
    scanValue fuel (gap ++ cs) = scanValue fuel cs := by
  rw [← scanValue_skipSpace, skipSpace_append hgap, scanValue_skipSpace]

theorem scanItems_skipSpace (fuel : Nat) (cs : List Char) :
    scanItems fuel (skipSpace cs) = scanItems fuel cs := by
  cases fuel with
  | zero => rfl
  | succ fuel => rw [scanItems, scanItems, scanValue_skipSpace]

theorem scanEntries_skipSpace (fuel : Nat) (cs : List Char) :
    scanEntries fuel (skipSpace cs) = scanEntries fuel cs := by
  cases fuel with
  | zero => rfl
  | succ fuel => rw [scanEntries, scanEntries, skipSpace_skipSpace]

mutual

/-- The document that a value is read as. -/
def node : Json → Node
  | .number value => .scalar (numberReadings value)
  | .string text => .scalar { text := some text }
  | .array items => .list true (nodes items)
  | .object members => .map (entries members)

/-- The documents of some items. -/
def nodes : List Json → List Node
  | [] => []
  | item :: items => node item :: nodes items

/-- The documents of some members. -/
def entries : List (String × Json) → List (Node × Node)
  | [] => []
  | (name, value) :: members => (.scalar { text := some name }, node value) :: entries members

end

theorem SpellsItems.exists_head {items : List Json} (h : SpellsItems items cs rest) :
    ∃ c behind, skipSpace cs = c :: behind ∧ c ≠ ']' := by
  cases h with
  | last hbefore hitem hafter =>
      obtain ⟨c, behind, rfl, hspace, hbracket, -⟩ := hitem.exists_head
      exact ⟨c, behind, by rw [skipSpace_append hbefore, skipSpace_cons hspace], hbracket⟩
  | more hbefore hitem hafter hitems =>
      obtain ⟨c, behind, rfl, hspace, hbracket, -⟩ := hitem.exists_head
      exact ⟨c, behind, by rw [skipSpace_append hbefore, skipSpace_cons hspace], hbracket⟩

theorem SpellsMembers.exists_head {members : List (String × Json)}
    (h : SpellsMembers members cs rest) :
    ∃ c behind, skipSpace cs = c :: behind ∧ c ≠ '\x7d' := by
  cases h with
  | last hbefore _ _ _ _ =>
      exact ⟨'"', _, by rw [skipSpace_append hbefore]; rfl, by decide⟩
  | more hbefore _ _ _ _ _ =>
      exact ⟨'"', _, by rw [skipSpace_append hbefore]; rfl, by decide⟩

theorem nodes_eq (items : List Json) : nodes items = items.map node := by
  induction items with
  | nil => rfl
  | cons item items ih => rw [nodes, ih, List.map_cons]

theorem entries_eq (members : List (String × Json)) :
    entries members =
      members.map fun member => (.scalar { text := some member.1 }, node member.2) := by
  induction members with
  | nil => rfl
  | cons member members ih => rw [entries, ih, List.map_cons]

/-! ### Single steps -/

/-- A gap ends a numeral if what follows the gap would. -/
theorem ends_gap (hgap : IsGap gap) (hrest : Ends rest) : Ends (gap ++ rest) := by
  cases gap with
  | nil => exact hrest
  | cons c gap =>
      have hc : isSpace c = true := hgap c List.mem_cons_self
      simp only [isSpace, Bool.or_eq_true, beq_iff_eq, or_assoc] at hc
      rcases hc with rfl | rfl | rfl | rfl
      all_goals exact Decimal.ends_cons.2 (by decide)

/-- What starts with neither a space nor an opening bracket or brace is a scalar. -/
theorem scanValue_cons {c : Char} (hspace : isSpace c = false) (hbracket : c ≠ '[')
    (hbrace : c ≠ '\x7b') (fuel : Nat) (cs : List Char) :
    scanValue (fuel + 1) (c :: cs) = scanScalar (c :: cs) := by
  rw [scanValue, skipSpace_cons hspace]
  split
  · next heq => exact absurd (List.cons.inj heq).1 hbracket
  · next heq => exact absurd (List.cons.inj heq).1 hbrace
  · rfl

/-- After its name, its colon and its value, a member goes on as the text behind them says. -/
theorem scanEntries_member {name : String} {value : Node} {fuel : Nat} (hbefore : IsGap before)
    (hmiddle : IsGap middle) (hgap : IsGap gap)
    (hread : scanValue fuel cs = some (value, behind)) :
    scanEntries (fuel + 1) (before ++ (quote name ++ (middle ++ ':' :: (gap ++ cs)))) =
      match skipSpace behind with
      | ',' :: rest => do
        let (entries, rest) ← scanEntries fuel rest
        return ((.scalar { text := some name }, value) :: entries, rest)
      | '\x7d' :: rest => some ([(.scalar { text := some name }, value)], rest)
      | _ => none := by
  rw [scanEntries, skipSpace_append hbefore, quote, List.cons_append, List.append_assoc,
    List.singleton_append, skipSpace_cons rfl]
  simp only [scanString_quote, Option.bind_eq_bind, Option.bind_some]
  rw [skipSpace_append hmiddle, skipSpace_cons rfl]
  simp only
  rw [scanValue_append hgap, hread]
  rfl

/-- So does an item after its value. -/
theorem scanItems_item {item : Node} {fuel : Nat} (hbefore : IsGap before)
    (hread : scanValue fuel cs = some (item, behind)) :
    scanItems (fuel + 1) (before ++ cs) =
      match skipSpace behind with
      | ',' :: rest => do
        let (items, rest) ← scanItems fuel rest
        return (item :: items, rest)
      | ']' :: rest => some ([item], rest)
      | _ => none := by
  rw [scanItems, scanValue_append hbefore, hread]
  rfl

/-! ### Whole spellings -/

mutual

/-- A spelling is read as the value that it spells. A value takes a step down for itself and one for
each of its items or members, and each of them has a character of its own besides its value. -/
theorem Spells.scanValue_eq {value : Json} {cs rest : List Char} :
    Spells value cs rest → ∀ fuel : Nat, 2 * cs.length ≤ fuel →
      scanValue fuel cs = some (node value, rest)
  | .number value hrest => fun fuel hfuel => by
      obtain ⟨c, behind, hcons, hspace, ⟨hbracket, hbrace⟩, -⟩ := exists_numeral_cons value
      have hscan := scanScalar_numeral value hrest
      rw [hcons, List.cons_append] at hfuel hscan ⊢
      rw [List.length_cons] at hfuel
      obtain ⟨fuel, rfl⟩ := Nat.exists_eq_add_of_le' (show 1 ≤ fuel by omega)
      rw [scanValue_cons hspace hbracket hbrace, hscan, node]
  | .string text rest => fun fuel hfuel => by
      rw [quote, List.cons_append, List.length_cons] at hfuel
      obtain ⟨fuel, rfl⟩ := Nat.exists_eq_add_of_le' (show 1 ≤ fuel by omega)
      have hscan := scanScalar_quote text rest
      rw [quote, List.cons_append] at hscan ⊢
      rw [scanValue_cons rfl (by decide) (by decide), hscan]
      rfl
  | .emptyArray hgap rest => fun fuel hfuel => by
      rw [List.length_cons] at hfuel
      obtain ⟨fuel, rfl⟩ := Nat.exists_eq_add_of_le' (show 1 ≤ fuel by omega)
      rw [scanValue, skipSpace_cons rfl]
      simp only [skipSpace_append hgap]
      rfl
  | .array hitems => fun fuel hfuel => by
      rw [List.length_cons] at hfuel
      obtain ⟨fuel, rfl⟩ := Nat.exists_eq_add_of_le' (show 1 ≤ fuel by omega)
      -- what follows the bracket is no closing one, so items are read
      obtain ⟨c, behind, hcons, hc⟩ := hitems.exists_head
      rw [scanValue, skipSpace_cons rfl]
      simp only [hcons]
      split
      · next heq => exact absurd (List.cons.inj heq).1 hc
      · rw [← hcons, scanItems_skipSpace, hitems.scanItems_eq fuel (by omega)]
        rfl
  | .emptyObject hgap rest => fun fuel hfuel => by
      rw [List.length_cons] at hfuel
      obtain ⟨fuel, rfl⟩ := Nat.exists_eq_add_of_le' (show 1 ≤ fuel by omega)
      rw [scanValue, skipSpace_cons rfl]
      simp only [skipSpace_append hgap]
      rfl
  | .object hmembers => fun fuel hfuel => by
      rw [List.length_cons] at hfuel
      obtain ⟨fuel, rfl⟩ := Nat.exists_eq_add_of_le' (show 1 ≤ fuel by omega)
      obtain ⟨c, behind, hcons, hc⟩ := hmembers.exists_head
      rw [scanValue, skipSpace_cons rfl]
      simp only [hcons]
      split
      · next heq => exact absurd (List.cons.inj heq).1 hc
      · rw [← hcons, scanEntries_skipSpace, hmembers.scanEntries_eq fuel (by omega)]
        rfl

/-- So are items. -/
theorem SpellsItems.scanItems_eq {items : List Json} {cs rest : List Char} :
    SpellsItems items cs rest → ∀ fuel : Nat, 2 * cs.length + 1 ≤ fuel →
      scanItems fuel cs = some (nodes items, rest)
  | .last hbefore hitem hafter => fun fuel hfuel => by
      obtain ⟨fuel, rfl⟩ := Nat.exists_eq_add_of_le' (show 1 ≤ fuel by omega)
      rw [List.length_append] at hfuel
      have hread := hitem.scanValue_eq fuel (by omega)
      rw [scanItems_item hbefore hread, skipSpace_append hafter, skipSpace_cons rfl]
      rfl
  | .more hbefore hitem hafter hitems => fun fuel hfuel => by
      obtain ⟨fuel, rfl⟩ := Nat.exists_eq_add_of_le' (show 1 ≤ fuel by omega)
      have hlength := hitem.length_lt
      rw [List.length_append] at hfuel
      rw [List.length_append, List.length_cons] at hlength
      have hread := hitem.scanValue_eq fuel (by omega)
      have hbehind := hitems.scanItems_eq fuel (by omega)
      rw [scanItems_item hbefore hread, skipSpace_append hafter, skipSpace_cons rfl]
      simp only [hbehind]
      rfl

/-- So are members. -/
theorem SpellsMembers.scanEntries_eq {members : List (String × Json)} {cs rest : List Char} :
    SpellsMembers members cs rest → ∀ fuel : Nat, 2 * cs.length + 1 ≤ fuel →
      scanEntries fuel cs = some (entries members, rest)
  | .last hbefore hmiddle hgap hvalue hafter => fun fuel hfuel => by
      obtain ⟨fuel, rfl⟩ := Nat.exists_eq_add_of_le' (show 1 ≤ fuel by omega)
      simp only [List.length_append, List.length_cons] at hfuel
      have hread := hvalue.scanValue_eq fuel (by omega)
      rw [scanEntries_member hbefore hmiddle hgap hread, skipSpace_append hafter,
        skipSpace_cons rfl]
      rfl
  | .more hbefore hmiddle hgap hvalue hafter hmembers => fun fuel hfuel => by
      obtain ⟨fuel, rfl⟩ := Nat.exists_eq_add_of_le' (show 1 ≤ fuel by omega)
      have hlength := hvalue.length_lt
      simp only [List.length_append, List.length_cons] at hfuel hlength
      have hread := hvalue.scanValue_eq fuel (by omega)
      have hbehind := hmembers.scanEntries_eq fuel (by omega)
      rw [scanEntries_member hbefore hmiddle hgap hread, skipSpace_append hafter,
        skipSpace_cons rfl]
      simp only [hbehind]
      rfl

end

/-- **Spellings are read.** A text that spells a value, with spaces around it, is read as the
document of that value. -/
theorem read?_of_spells {value : Json} (hbefore : IsGap before) (h : Spells value cs after)
    (hafter : IsGap after) :
    read? (String.ofList (before ++ cs)) = some { root := node value } := by
  have hrest : skipSpace after = [] := by
    rw [← List.append_nil after, skipSpace_append hafter]
    rfl
  rw [read?, String.toList_ofList, List.length_append, scanValue_append hbefore,
    h.scanValue_eq _ (by omega)]
  simp only [hrest]
  rfl

end GrowthGrammar.Json
