import GrowthGrammar.Phrase.Normal
import GrowthGrammar.Proofs.Outcome

/-!
# The grammar of phrases

The scanner accepts a text exactly when the text is a row of well-formed items, each written as its
symbol with the parameter group right behind it. Well-formed means that the symbol is known, is no
marker and begins with no shorter known symbol, and that the parentheses inside the group are
balanced. A text has at most one such row, so scanning invents, loses and doubles no character
(`scan_eq_ok_iff_isWritten`).
-/

set_option autoImplicit false

namespace GrowthGrammar.Phrase

/-! ## Balanced parentheses -/

/-- Whether a text closes the `depth` groups open before it and every group that it opens, and
closes none besides. -/
def isBalanced : Nat → List Char → Bool
  | depth, [] => depth == 0
  | depth, c :: rest =>
    if c = '(' then isBalanced (depth + 1) rest
    else if c = ')' then
      match depth with
      | 0 => false
      | depth + 1 => isBalanced depth rest
    else isBalanced depth rest

@[simp] theorem isBalanced_open (depth : Nat) (rest : List Char) :
    isBalanced depth ('(' :: rest) = isBalanced (depth + 1) rest := by
  rw [isBalanced.eq_def]; rfl

@[simp] theorem isBalanced_close (depth : Nat) (rest : List Char) :
    isBalanced (depth + 1) (')' :: rest) = isBalanced depth rest := by
  rw [isBalanced.eq_def]; rfl

theorem isBalanced_cons {depth : Nat} {c : Char} (rest : List Char) (h : isMarker c = false) :
    isBalanced depth (c :: rest) = isBalanced depth rest := by
  obtain ⟨hopen, hclose⟩ : c ≠ '(' ∧ c ≠ ')' := by simpa [isMarker] using h
  rw [isBalanced.eq_def]
  simp only [if_neg hopen, if_neg hclose]

/-- A character is a marker of either kind, or neither. -/
theorem marker_cases (c : Char) : c = '(' ∨ c = ')' ∨ isMarker c = false := by
  by_cases hopen : c = '('
  · exact .inl hopen
  · by_cases hclose : c = ')'
    · exact .inr (.inl hclose)
    · exact .inr (.inr (by simp [isMarker, hopen, hclose]))

/-- Taking a group is taking the rest of it, unless the first character closes it. -/
theorem takeGroup_open (depth : Nat) (rest : List Char) :
    takeGroup depth ('(' :: rest) =
      (takeGroup (depth + 1) rest).map fun (inside, after) => ('(' :: inside, after) := by
  rw [takeGroup.eq_def]; rfl

theorem takeGroup_close (depth : Nat) (rest : List Char) :
    takeGroup (depth + 1) (')' :: rest) =
      (takeGroup depth rest).map fun (inside, after) => (')' :: inside, after) := by
  rw [takeGroup.eq_def]; rfl

theorem takeGroup_cons {depth : Nat} {c : Char} (rest : List Char) (h : isMarker c = false) :
    takeGroup depth (c :: rest) =
      (takeGroup depth rest).map fun (inside, after) => (c :: inside, after) := by
  obtain ⟨hopen, hclose⟩ : c ≠ '(' ∧ c ≠ ')' := by simpa [isMarker] using h
  rw [takeGroup.eq_def]
  simp only [if_neg hopen, if_neg hclose]

/-- The inside of a group is the balanced text in front of its closing marker. -/
theorem takeGroup_append {depth : Nat} {inside : List Char} (after : List Char)
    (h : isBalanced depth inside = true) :
    takeGroup depth (inside ++ ')' :: after) = some (inside, after) := by
  induction inside generalizing depth with
  | nil =>
      have hdepth : depth = 0 := by simpa [isBalanced] using h
      subst hdepth
      rfl
  | cons c rest ih =>
      rw [List.cons_append]
      rcases marker_cases c with rfl | rfl | hc
      · rw [isBalanced_open] at h
        rw [takeGroup_open, ih h]
        rfl
      · cases depth with
        | zero => simp [isBalanced] at h
        | succ depth =>
            rw [isBalanced_close] at h
            rw [takeGroup_close, ih h]
            rfl
      · rw [isBalanced_cons rest hc] at h
        rw [takeGroup_cons _ hc, ih h]
        rfl

theorem isBalanced_of_takeGroup {depth : Nat} {cs inside after : List Char}
    (h : takeGroup depth cs = some (inside, after)) : isBalanced depth inside = true := by
  induction cs generalizing depth inside with
  | nil => cases h
  | cons c rest ih =>
      -- unless `c` ends the group, it stands in front of the inside that the rest has
      have hinside : ∀ {d : Nat},
          (takeGroup d rest).map (fun (inside, after) => (c :: inside, after)) =
            some (inside, after) → ∃ tail, inside = c :: tail ∧ isBalanced d tail = true := by
        intro d hd
        obtain ⟨⟨tail, after'⟩, htail, heq⟩ := Option.map_eq_some_iff.1 hd
        obtain ⟨rfl, rfl⟩ := Prod.mk.inj heq
        exact ⟨tail, rfl, ih htail⟩
      rcases marker_cases c with rfl | rfl | hc
      · rw [takeGroup_open] at h
        obtain ⟨tail, rfl, htail⟩ := hinside h
        rwa [isBalanced_open]
      · cases depth with
        | zero =>
            obtain ⟨rfl, rfl⟩ := Prod.mk.inj (Option.some.inj h)
            rfl
        | succ depth =>
            rw [takeGroup_close] at h
            obtain ⟨tail, rfl, htail⟩ := hinside h
            rwa [isBalanced_close]
      · rw [takeGroup_cons rest hc] at h
        obtain ⟨tail, rfl, htail⟩ := hinside h
        rwa [isBalanced_cons tail hc]

/-! ## Items and their characters -/

/-- The characters of a parameter group, markers included. -/
def groupText : Option String → List Char
  | some raw => '(' :: (raw.toList ++ [')'])
  | none => []

/-- The characters of an item in a phrase. -/
def Item.text (item : Item) : List Char :=
  item.symbol.toList ++ groupText item.raw

/-- The characters of a row of items. -/
def itemsText (items : List Item) : List Char :=
  items.flatMap Item.text

@[simp] theorem itemsText_nil : itemsText [] = [] := rfl

@[simp] theorem itemsText_cons (item : Item) (items : List Item) :
    itemsText (item :: items) = item.text ++ itemsText items := by
  simp [itemsText, List.flatMap_cons]

/-- The symbols that can stand in a phrase: known, no marker, and reached by no shorter known
symbol first. -/
structure IsScannable (vocabulary : Vocabulary) (symbol : String) : Prop where
  known : vocabulary.knows symbol = true
  not_marker : isBareMarker symbol = false
  shortest : ∀ start : List Char, start ≠ [] → start <+: symbol.toList →
    start ≠ symbol.toList → vocabulary.knows (String.ofList start) = false

/-- The items that can stand in a phrase. -/
structure Item.IsWellFormed (vocabulary : Vocabulary) (item : Item) : Prop where
  scannable : IsScannable vocabulary item.symbol
  balanced : ∀ raw ∈ item.raw, isBalanced 0 raw.toList = true

/-- A text is written as a row of items. -/
structure IsWritten (vocabulary : Vocabulary) (items : List Item) (cs : List Char) : Prop where
  text_eq : itemsText items = cs
  wellFormed : ∀ item ∈ items, item.IsWellFormed vocabulary

theorem IsWritten.cons {vocabulary : Vocabulary} {item : Item} {items : List Item} {cs : List Char}
    (h : IsWritten vocabulary items cs) (hitem : item.IsWellFormed vocabulary) :
    IsWritten vocabulary (item :: items) (item.text ++ cs) := by
  refine ⟨?_, List.forall_mem_cons.2 ⟨hitem, h.wellFormed⟩⟩
  rw [itemsText_cons, h.text_eq]

/-- A known symbol has a first character, and if it is no marker itself, no character of it is
one. -/
theorem markerFree_of_knows {vocabulary : Vocabulary} {symbol : String}
    (hknown : vocabulary.knows symbol = true) (hmarker : isBareMarker symbol = false) :
    symbol.toList ≠ [] ∧ ∀ c ∈ symbol.toList, isMarker c = false := by
  have hfree : ∀ {role : Role}, role.admits symbol = true →
      ∀ c ∈ symbol.toList, isMarker c = false := by
    intro role hadmits c hc
    simp only [Role.admits, hmarker, Bool.and_false, Bool.or_false, Bool.and_eq_true,
      Bool.not_eq_true', List.any_eq_false] at hadmits
    simpa using hadmits.2 c hc
  have hne : symbol ≠ "" → symbol.toList ≠ [] := fun h hnil =>
    h (String.toList_injective hnil)
  rcases Vocabulary.knows_iff.1 hknown with hmem | hmem
  · exact ⟨hne (vocabulary.active.nonempty_of_mem _ hmem),
      hfree (vocabulary.active.admits_of_mem _ hmem)⟩
  · exact ⟨hne (vocabulary.ignored.nonempty_of_mem _ hmem),
      hfree (vocabulary.ignored.admits_of_mem _ hmem)⟩

/-- Only an ignored symbol can be a marker. -/
theorem not_isBareMarker_of_mem_active {vocabulary : Vocabulary} {symbol : String}
    (h : symbol ∈ vocabulary.active) : isBareMarker symbol = false := by
  have hadmits : Role.active.admits symbol = true := vocabulary.active.admits_of_mem _ h
  rw [Bool.eq_false_iff]
  intro hmarker
  rw [isBareMarker, Bool.or_eq_true, beq_iff_eq, beq_iff_eq] at hmarker
  rcases hmarker with rfl | rfl
  · exact absurd hadmits (by decide)
  · exact absurd hadmits (by decide)

/-- No symbol has a blank in it. -/
theorem not_isBlank_of_knows {vocabulary : Vocabulary} {symbol : String}
    (hknown : vocabulary.knows symbol = true) {c : Char} (hc : c ∈ symbol.toList) :
    Text.isBlank c = false := by
  have hadmits : ∀ {role : Role}, role.admits symbol = true → Text.isBlank c = false := by
    intro role hadmits
    rw [Role.admits, Bool.and_eq_true, Bool.not_eq_true', List.any_eq_false] at hadmits
    exact Bool.eq_false_iff.2 (hadmits.1 c hc)
  rcases Vocabulary.knows_iff.1 hknown with hmem | hmem
  · exact hadmits (vocabulary.active.admits_of_mem _ hmem)
  · exact hadmits (vocabulary.ignored.admits_of_mem _ hmem)

/-- The letter of an item has the symbol of the item. -/
theorem symbol_of_letter {lookup : String → Option Float} {item : Item} {letter : Letter}
    (h : item.letter lookup = .ok letter) : letter.symbol = item.symbol := by
  unfold Item.letter at h
  split at h
  · obtain ⟨params, -, heq⟩ := Outcome.bind_eq_ok_iff.1 h
    cases heq
    rfl
  · cases h
    rfl

/-- The letters of items have their symbols. -/
theorem map_symbol_of_letters {lookup : String → Option Float} {items : List Item}
    {word : Word} (h : items.map (Item.letter lookup) = word.map .ok) :
    items.map Item.symbol = word.map Letter.symbol := by
  induction items generalizing word with
  | nil =>
      obtain rfl : word = [] := List.map_eq_nil_iff.1 h.symm
      rfl
  | cons item items ih =>
      cases word with
      | nil => cases h
      | cons letter word =>
          obtain ⟨hletter, hrest⟩ := List.cons.inj h
          rw [List.map_cons, List.map_cons, ih hrest, symbol_of_letter hletter]

/-- The symbols of a word are those that its phrase is scanned to, whatever the parameters. -/
theorem symbols_of_tokenize {vocabulary : Vocabulary} {lookup : String → Option Float}
    {phrase : String} {word : Word} (h : tokenize vocabulary lookup phrase = .ok word) :
    symbols vocabulary phrase = .ok (word.map Letter.symbol) := by
  obtain ⟨items, hitems, hword⟩ := Outcome.bind_eq_ok_iff.1 h
  have hsymbols := map_symbol_of_letters (Outcome.mapM_eq_ok_iff.1 hword)
  exact Outcome.bind_eq_ok_iff.2 ⟨items, hitems, congrArg Except.ok hsymbols⟩

/-! ## What is accepted is written -/

/-- A candidate that has just become known, and no shorter part of which is, is a symbol that can
stand in a phrase. -/
theorem isScannable_of_grown {vocabulary : Vocabulary} {candidate : List Char} {c : Char}
    (hfresh : ∀ start : List Char, start ≠ [] → start <+: candidate →
      vocabulary.knows (String.ofList start) = false)
    (hmarker : ¬(candidate.isEmpty && isMarker c) = true)
    (hknown : vocabulary.knows (String.ofList (candidate ++ [c])) = true) :
    IsScannable vocabulary (String.ofList (candidate ++ [c])) where
  known := hknown
  not_marker := by
    cases candidate with
    | nil =>
        have hc : isMarker c = false := by simpa using hmarker
        have hne : ∀ d : Char, isMarker d = true → String.ofList [c] ≠ String.ofList [d] := by
          intro d hd heq
          have hcd : [c] = [d] := String.ofList_injective heq
          rw [List.singleton_inj.1 hcd, hd] at hc
          cases hc
        simp only [isBareMarker, List.nil_append, Bool.or_eq_false_iff, beq_eq_false_iff_ne]
        exact ⟨hne '(' rfl, hne ')' rfl⟩
    | cons d rest =>
        have hlong : ∀ e : Char, String.ofList (d :: rest ++ [c]) ≠ String.ofList [e] := by
          intro e heq
          have hlen := congrArg List.length (String.ofList_injective heq)
          simp at hlen
        simp only [isBareMarker, Bool.or_eq_false_iff, beq_eq_false_iff_ne]
        exact ⟨hlong '(', hlong ')'⟩
  shortest := by
    intro start hne hstart hproper
    rw [String.toList_ofList] at hstart hproper
    rcases List.prefix_concat_iff.1 hstart with heq | hstart
    · exact absurd heq hproper
    · exact hfresh start hne hstart

theorem fresh_nil {vocabulary : Vocabulary} (start : List Char) (hne : start ≠ [])
    (hstart : start <+: []) : vocabulary.knows (String.ofList start) = false :=
  absurd (List.prefix_nil.1 hstart) hne

/-- The items that a scan yields are written as the candidate and the characters behind it. The
candidate of a scan holds no known symbol at its beginning, and neither does the one it grows to. -/
theorem isWritten_of_scanFrom {vocabulary : Vocabulary} (position : Nat)
    (candidate cs : List Char) :
    (∀ start : List Char, start ≠ [] → start <+: candidate →
      vocabulary.knows (String.ofList start) = false) →
    ∀ items, scanFrom vocabulary.knows position candidate cs = .ok items →
      IsWritten vocabulary items (candidate ++ cs) := by
  fun_induction scanFrom vocabulary.knows position candidate cs with
  | case1 position candidate hempty =>
      intro _ items h
      cases h
      have hnil : candidate = [] := List.isEmpty_iff.1 hempty
      subst hnil
      exact ⟨rfl, by simp⟩
  | case2 =>
      intro _ items h
      cases h
  | case3 =>
      intro _ items h
      cases h
  | case4 =>
      intro _ items h
      cases h
  | case5 position candidate c hmarker grown symbol group inside after hgroup hknown ih =>
      intro hfresh items h
      obtain ⟨rest, hrest, h⟩ := Outcome.bind_eq_ok_iff.1 h
      cases h
      have hitem : Item.IsWellFormed vocabulary ⟨symbol, some (String.ofList inside)⟩ := by
        refine ⟨isScannable_of_grown hfresh hmarker hknown, ?_⟩
        intro raw hraw
        obtain rfl : String.ofList inside = raw := Option.some.inj hraw
        rw [String.toList_ofList]
        exact isBalanced_of_takeGroup hgroup
      have hwritten := (ih fresh_nil rest hrest).cons hitem
      rw [← append_of_takeGroup hgroup]
      simpa [Item.text, groupText, symbol, grown] using hwritten
  | case6 =>
      intro _ items h
      cases h
  | case7 position candidate c hmarker grown symbol after hafter hknown ih =>
      intro hfresh items h
      obtain ⟨rest, hrest, h⟩ := Outcome.bind_eq_ok_iff.1 h
      cases h
      have hitem : Item.IsWellFormed vocabulary ⟨symbol, none⟩ :=
        ⟨isScannable_of_grown hfresh hmarker hknown, fun raw hraw => nomatch hraw⟩
      have hwritten := (ih fresh_nil rest hrest).cons hitem
      simpa [Item.text, groupText, symbol, grown] using hwritten
  | case8 position candidate c hmarker grown symbol after hafter hunknown ih =>
      intro hfresh items h
      have hgrown : ∀ start : List Char, start ≠ [] → start <+: grown →
          vocabulary.knows (String.ofList start) = false := by
        intro start hne hstart
        rcases List.prefix_concat_iff.1 hstart with rfl | hstart
        · exact Bool.not_eq_true _ ▸ hunknown
        · exact hfresh start hne hstart
      simpa [grown] using ih hgrown items h

/-! ## What is written is accepted -/

section Steps

variable {knows : String → Bool} {position : Nat} {candidate : List Char} {c : Char}

/-- A candidate that is not yet known grows by the next character. -/
theorem scanFrom_grow {d : Char} {rest : List Char} (hc : isMarker c = false) (hd : d ≠ '(')
    (hunknown : knows (String.ofList (candidate ++ [c])) = false) :
    scanFrom knows position candidate (c :: d :: rest) =
      scanFrom knows (position + 1) (candidate ++ [c]) (d :: rest) := by
  rw [scanFrom]
  simp only [hc, Bool.and_false, Bool.false_eq_true, if_false]
  split
  · next group heq => exact absurd (List.cons.inj heq).1 hd
  · rw [if_neg (Bool.eq_false_iff.1 hunknown)]

/-- A known candidate with a group behind it. -/
theorem scanFrom_group {inside after : List Char} (hc : isMarker c = false)
    (hknown : knows (String.ofList (candidate ++ [c])) = true)
    (hinside : isBalanced 0 inside = true) :
    scanFrom knows position candidate (c :: '(' :: (inside ++ ')' :: after)) =
      (do
        let items ← scanFrom knows (position + inside.length + 3) [] after
        return ⟨String.ofList (candidate ++ [c]), some (String.ofList inside)⟩ :: items) := by
  rw [scanFrom]
  simp only [hc, Bool.and_false, Bool.false_eq_true, if_false]
  split
  · next hnone => rw [takeGroup_append after hinside] at hnone; cases hnone
  · next inside' after' hsome =>
      rw [takeGroup_append after hinside] at hsome
      obtain ⟨rfl, rfl⟩ := Prod.mk.inj (Option.some.inj hsome)
      rw [if_pos hknown]

/-- A known candidate with no group behind it. -/
theorem scanFrom_plain {rest : List Char} (hc : isMarker c = false)
    (hknown : knows (String.ofList (candidate ++ [c])) = true) (hrest : rest.head? ≠ some '(') :
    scanFrom knows position candidate (c :: rest) =
      (do
        let items ← scanFrom knows (position + 1) [] rest
        return ⟨String.ofList (candidate ++ [c]), none⟩ :: items) := by
  rw [scanFrom]
  simp only [hc, Bool.and_false, Bool.false_eq_true, if_false]
  split
  · next group => exact absurd rfl hrest
  · rw [if_pos hknown]

end Steps

/-- A well-formed item is scanned in front of whatever is scanned behind it. The induction is on
the characters of its symbol that the candidate still lacks. -/
theorem scanFrom_item {vocabulary : Vocabulary} {item : Item} {items : List Item}
    {rest : List Char} (hitem : item.IsWellFormed vocabulary)
    (hrest : ∀ position, scanFrom vocabulary.knows position [] rest = .ok items)
    (hhead : rest.head? ≠ some '(') (missing : List Char) (candidate : List Char) (position : Nat)
    (hmissing : missing ≠ []) (hsymbol : item.symbol.toList = candidate ++ missing) :
    scanFrom vocabulary.knows position candidate (missing ++ (groupText item.raw ++ rest)) =
      .ok (item :: items) := by
  induction missing generalizing candidate position with
  | nil => exact absurd rfl hmissing
  | cons c missing ih =>
      obtain ⟨⟨hknown, hmarker, hshortest⟩, hbalanced⟩ := hitem
      have hfree := (markerFree_of_knows hknown hmarker).2
      have hc : isMarker c = false := hfree c (by simp [hsymbol])
      cases missing with
      | nil =>
          have hgrown : String.ofList (candidate ++ [c]) = item.symbol := by
            rw [← hsymbol, String.ofList_toList]
          cases hraw : item.raw with
          | none =>
              show scanFrom vocabulary.knows position candidate (c :: rest) = _
              rw [scanFrom_plain hc (hgrown ▸ hknown) hhead, hrest, hgrown, ← hraw]
              rfl
          | some raw =>
              have hgroup : [c] ++ (groupText (some raw) ++ rest) =
                  c :: '(' :: (raw.toList ++ ')' :: rest) := by
                simp [groupText]
              rw [hgroup, scanFrom_group hc (hgrown ▸ hknown) (hbalanced raw (by simp [hraw])),
                hrest, hgrown, String.ofList_toList, ← hraw]
              rfl
      | cons d missing =>
          have hd : isMarker d = false := hfree d (by simp [hsymbol])
          have hopen : d ≠ '(' := by
            rintro rfl
            cases hd
          have hunknown : vocabulary.knows (String.ofList (candidate ++ [c])) = false := by
            refine hshortest _ (by simp) ⟨d :: missing, by simp [hsymbol]⟩ ?_
            rw [hsymbol]
            intro heq
            have hlen := congrArg List.length heq
            simp at hlen
          rw [List.cons_append, List.cons_append, scanFrom_grow hc hopen hunknown]
          exact ih (candidate ++ [c]) (position + 1) (by simp) (by simp [hsymbol])

/-- No row of well-formed items begins with a marker. -/
theorem head?_itemsText {vocabulary : Vocabulary} {items : List Item}
    (h : ∀ item ∈ items, item.IsWellFormed vocabulary) : (itemsText items).head? ≠ some '(' := by
  cases items with
  | nil => simp
  | cons item items =>
      obtain ⟨⟨hknown, hmarker, -⟩, -⟩ := h item (by simp)
      obtain ⟨hne, hfree⟩ := markerFree_of_knows hknown hmarker
      cases hs : item.symbol.toList with
      | nil => exact absurd hs hne
      | cons c rest =>
          have hc : isMarker c = false := hfree c (by simp [hs])
          rw [itemsText_cons, Item.text, hs]
          rintro heq
          obtain rfl : c = '(' := Option.some.inj heq
          cases hc

theorem scanFrom_itemsText {vocabulary : Vocabulary} {items : List Item}
    (h : ∀ item ∈ items, item.IsWellFormed vocabulary) (position : Nat) :
    scanFrom vocabulary.knows position [] (itemsText items) = .ok items := by
  induction items generalizing position with
  | nil =>
      rw [itemsText_nil, scanFrom]
      rfl
  | cons item items ih =>
      have htail : ∀ item ∈ items, item.IsWellFormed vocabulary :=
        fun i hi => h i (List.mem_cons_of_mem _ hi)
      have hitem := h item (by simp)
      have hne := (markerFree_of_knows hitem.scannable.known hitem.scannable.not_marker).1
      rw [itemsText_cons, Item.text, List.append_assoc]
      exact scanFrom_item hitem (ih htail) (head?_itemsText htail) item.symbol.toList [] position
        hne rfl

/-! ## The scanner and the grammar -/

theorem isWritten_iff_scanFrom {vocabulary : Vocabulary} {items : List Item} {cs : List Char} :
    IsWritten vocabulary items cs ↔ scanFrom vocabulary.knows 0 [] cs = .ok items := by
  constructor
  · rintro ⟨rfl, hwell⟩
    exact scanFrom_itemsText hwell 0
  · intro h
    exact isWritten_of_scanFrom 0 [] cs fresh_nil items h

theorem scan_eq_ok_iff {vocabulary : Vocabulary} {phrase : String} {items : List Item} :
    scan vocabulary phrase = .ok items ↔ IsWritten vocabulary items (chars phrase) := by
  rw [isWritten_iff_scanFrom, scan]
  exact Outcome.mapError_eq_ok_iff

/-- **Scanning accepts exactly the grammar.** A phrase scans to a row of items exactly when it is
written as that row once its blanks are dropped; it is written as one row at most, and if it is
written as none, scanning fails. -/
theorem scan_eq_ok_iff_isWritten (vocabulary : Vocabulary) (phrase : String) :
    (∀ items, scan vocabulary phrase = .ok items ↔
      IsWritten vocabulary items (Text.compact phrase.toList)) ∧
    (∀ items others, IsWritten vocabulary items (Text.compact phrase.toList) →
      IsWritten vocabulary others (Text.compact phrase.toList) → items = others) ∧
    ((∀ items, ¬IsWritten vocabulary items (Text.compact phrase.toList)) →
      ∃ fault, scan vocabulary phrase = .error fault) := by
  have hiff : ∀ items, scan vocabulary phrase = .ok items ↔
      IsWritten vocabulary items (Text.compact phrase.toList) := fun _ => scan_eq_ok_iff
  refine ⟨hiff, ?_, ?_⟩
  · intro items others hitems hothers
    have heq : Except.ok items = Except.ok others :=
      ((hiff items).2 hitems).symm.trans ((hiff others).2 hothers)
    exact Except.ok.inj heq
  · intro hnone
    cases hscan : scan vocabulary phrase with
    | error fault => exact ⟨fault, rfl⟩
    | ok items => exact absurd ((hiff items).1 hscan) (hnone items)

end GrowthGrammar.Phrase
