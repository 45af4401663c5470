import GrowthGrammar.Proofs.Phrase.Grammar

/-!
# Parameter lists

The inside of a parameter group is split at its outer commas, those that stand in no inner group. A
parameter is a text with balanced parentheses and without outer commas. Splitting undoes joining: a
list of parameters is what its joined text is split into (`splitParams_intercalate`), and the items
of a balanced text are parameters, one more than it has outer commas (`isParameter_of_mem_splitParams`,
`length_splitParams`). So the parameters of a symbol are evaluated one by one and none is lost
(`tokenize_params`).
-/

set_option autoImplicit false

namespace GrowthGrammar.Phrase

/-! ## Balanced texts -/

theorem depthAfter_of_markerFree {c : Char} (depth : Nat) (h : isMarker c = false) :
    depthAfter depth c = depth := by
  obtain ⟨hopen, hclose⟩ : c ≠ '(' ∧ c ≠ ')' := by simpa [isMarker] using h
  rw [depthAfter, if_neg hopen, if_neg hclose]

/-- A text that closes what is open before it leaves the rest to close what is open besides. -/
theorem isBalanced_append {depth : Nat} {front : List Char} (outer : Nat) (rest : List Char)
    (h : isBalanced depth front = true) :
    isBalanced (outer + depth) (front ++ rest) = isBalanced outer rest := by
  induction front generalizing depth with
  | nil =>
      have hdepth : depth = 0 := by simpa [isBalanced] using h
      rw [hdepth, Nat.add_zero, List.nil_append]
  | cons c front ih =>
      rw [List.cons_append]
      rcases marker_cases c with rfl | rfl | hc
      · rw [isBalanced_open] at h
        rw [isBalanced_open, Nat.add_assoc, ih h]
      · cases depth with
        | zero => simp [isBalanced] at h
        | succ depth =>
            rw [isBalanced_close] at h
            rw [← Nat.add_assoc, isBalanced_close, ih h]
      · rw [isBalanced_cons front hc] at h
        rw [isBalanced_cons _ hc, ih h]

theorem isBalanced_of_markerFree {cs : List Char} (h : ∀ c ∈ cs, isMarker c = false) :
    isBalanced 0 cs = true := by
  induction cs with
  | nil => rfl
  | cons c rest ih =>
      rw [isBalanced_cons rest (h c List.mem_cons_self)]
      exact ih fun d hd => h d (List.mem_cons_of_mem _ hd)

/-- A balanced text closes no group at its beginning that is not open. -/
theorem isBalanced_cons_iff {depth : Nat} {c : Char} {rest : List Char} :
    isBalanced depth (c :: rest) = true ↔
      ¬(c = ')' ∧ depth = 0) ∧ isBalanced (depthAfter depth c) rest = true := by
  rcases marker_cases c with rfl | rfl | hc
  · rw [isBalanced_open]
    simp [depthAfter]
  · cases depth with
    | zero => simp [isBalanced]
    | succ depth =>
        rw [isBalanced_close]
        simp [depthAfter]
  · have hclose : c ≠ ')' := by
      rintro rfl
      cases hc
    rw [isBalanced_cons rest hc, depthAfter_of_markerFree depth hc]
    simp [hclose]

theorem isBalanced_intercalate {texts : List (List Char)}
    (h : ∀ text ∈ texts, isBalanced 0 text = true) :
    isBalanced 0 ([','].intercalate texts) = true := by
  induction texts with
  | nil => rfl
  | cons text texts ih =>
      rw [List.forall_mem_cons] at h
      cases texts with
      | nil =>
          rw [List.intercalate_singleton]
          exact h.1
      | cons next texts =>
          rw [List.intercalate_cons_cons, List.append_assoc]
          exact (isBalanced_append 0 _ h.1).trans (ih h.2)

/-! ## Parameters -/

/-- The number of commas that stand in no group; `depth` groups are open at the start. -/
def outerCommas (depth : Nat) : List Char → Nat
  | [] => 0
  | c :: rest => (if c = ',' ∧ depth = 0 then 1 else 0) + outerCommas (depthAfter depth c) rest

/-- A text that can be one parameter of a list, or the rest of one in which `depth` groups are
open. -/
structure IsParameter (depth : Nat) (text : List Char) : Prop where
  balanced : isBalanced depth text = true
  comma_free : outerCommas depth text = 0

section Parameters

variable {depth : Nat} {c : Char} {cs text rest first : List Char} {items texts : List (List Char)}

theorem isParameter_nil_iff : IsParameter depth [] ↔ depth = 0 := by
  constructor
  · rintro ⟨hbalanced, -⟩
    simpa [isBalanced] using hbalanced
  · rintro rfl
    exact ⟨rfl, rfl⟩

/-- A parameter begins with no outer comma, and closes no group that is not open. -/
theorem isParameter_cons_iff :
    IsParameter depth (c :: rest) ↔
      ¬(c = ',' ∧ depth = 0) ∧ ¬(c = ')' ∧ depth = 0) ∧
        IsParameter (depthAfter depth c) rest := by
  have hcommas : outerCommas depth (c :: rest) = 0 ↔
      ¬(c = ',' ∧ depth = 0) ∧ outerCommas (depthAfter depth c) rest = 0 := by
    rw [outerCommas]
    by_cases hc : c = ',' ∧ depth = 0 <;> simp [hc]
  constructor
  · rintro ⟨hbalanced, hfree⟩
    obtain ⟨hclose, hrest⟩ := isBalanced_cons_iff.1 hbalanced
    exact ⟨(hcommas.1 hfree).1, hclose, hrest, (hcommas.1 hfree).2⟩
  · rintro ⟨hc, hclose, hbalanced, hfree⟩
    exact ⟨isBalanced_cons_iff.2 ⟨hclose, hbalanced⟩, hcommas.2 ⟨hc, hfree⟩⟩

/-- A text without markers and commas is a parameter. -/
theorem isParameter_of_inert (h : ∀ c ∈ text, c ≠ ',' ∧ isMarker c = false) :
    IsParameter 0 text := by
  induction text with
  | nil => exact isParameter_nil_iff.2 rfl
  | cons c text ih =>
      rw [List.forall_mem_cons] at h
      obtain ⟨⟨hcomma, hmarker⟩, hrest⟩ := h
      have hclose : c ≠ ')' := by
        rintro rfl
        cases hmarker
      rw [isParameter_cons_iff, depthAfter_of_markerFree 0 hmarker]
      exact ⟨fun hc => hcomma hc.1, fun hc => hclose hc.1, ih hrest⟩

/-! ## Splitting and joining -/

/-- A comma in no group ends a parameter. -/
theorem splitParams_comma (rest : List Char) :
    splitParams 0 (',' :: rest) = [] :: splitParams 0 rest := by
  rw [splitParams, if_pos ⟨rfl, rfl⟩]

/-- Any other character belongs to the parameter that goes on behind it. -/
theorem splitParams_cons (hc : ¬(c = ',' ∧ depth = 0))
    (hrest : splitParams (depthAfter depth c) rest = first :: items) :
    splitParams depth (c :: rest) = (c :: first) :: items := by
  rw [splitParams, if_neg hc, hrest]

/-- A parameter stands in front of the first item of what is behind it. -/
theorem splitParams_append (htext : IsParameter depth text)
    (hrest : splitParams 0 rest = first :: items) :
    splitParams depth (text ++ rest) = (text ++ first) :: items := by
  induction text generalizing depth with
  | nil =>
      rw [isParameter_nil_iff.1 htext]
      exact hrest
  | cons c text ih =>
      obtain ⟨hc, -, htext⟩ := isParameter_cons_iff.1 htext
      exact splitParams_cons hc (ih htext)

/-- Parameters are what their list is split into. -/
theorem splitParams_intercalate (hne : texts ≠ []) (h : ∀ text ∈ texts, IsParameter 0 text) :
    splitParams 0 ([','].intercalate texts) = texts := by
  induction texts with
  | nil => exact absurd rfl hne
  | cons text texts ih =>
      rw [List.forall_mem_cons] at h
      cases texts with
      | nil =>
          have hlast : splitParams 0 (text ++ []) = [text ++ []] := splitParams_append h.1 rfl
          rw [List.append_nil] at hlast
          rw [List.intercalate_singleton, hlast]
      | cons next texts =>
          have hnext := ih (List.cons_ne_nil _ _) h.2
          have hcomma : splitParams 0 (',' :: [','].intercalate (next :: texts)) =
              [] :: next :: texts := by
            rw [splitParams_comma, hnext]
          have hall := splitParams_append h.1 hcomma
          rw [List.append_nil] at hall
          rw [List.intercalate_cons_cons]
          simpa using hall

/-- The items of a balanced text are parameters. The first one goes on from what is open before the
text. -/
theorem isParameter_of_splitParams (hcs : isBalanced depth cs = true)
    (h : splitParams depth cs = first :: items) :
    IsParameter depth first ∧ ∀ item ∈ items, IsParameter 0 item := by
  induction cs generalizing depth first items with
  | nil =>
      obtain ⟨rfl, rfl⟩ := List.cons.inj h
      exact ⟨⟨hcs, rfl⟩, by simp⟩
  | cons c rest ih =>
      obtain ⟨hclose, hrest⟩ := isBalanced_cons_iff.1 hcs
      obtain ⟨next, others, hsplit⟩ :=
        List.exists_cons_of_ne_nil (splitParams_ne_nil (depthAfter depth c) rest)
      obtain ⟨hnext, hothers⟩ := ih hrest hsplit
      by_cases hc : c = ',' ∧ depth = 0
      · obtain ⟨rfl, rfl⟩ := hc
        have hsplit : splitParams 0 rest = next :: others := hsplit
        rw [splitParams_comma, hsplit] at h
        obtain ⟨rfl, rfl⟩ := List.cons.inj h
        exact ⟨isParameter_nil_iff.2 rfl, List.forall_mem_cons.2 ⟨hnext, hothers⟩⟩
      · rw [splitParams_cons hc hsplit] at h
        obtain ⟨rfl, rfl⟩ := List.cons.inj h
        exact ⟨isParameter_cons_iff.2 ⟨hc, hclose, hnext⟩, hothers⟩

theorem isParameter_of_mem_splitParams (hcs : isBalanced 0 cs = true) :
    ∀ item ∈ splitParams 0 cs, IsParameter 0 item := by
  obtain ⟨first, items, hsplit⟩ := List.exists_cons_of_ne_nil (splitParams_ne_nil 0 cs)
  rw [hsplit]
  exact List.forall_mem_cons.2 (isParameter_of_splitParams hcs hsplit)

/-- There is one item more than there are outer commas. -/
theorem length_splitParams (depth : Nat) (cs : List Char) :
    (splitParams depth cs).length = outerCommas depth cs + 1 := by
  induction cs generalizing depth with
  | nil => rfl
  | cons c rest ih =>
      have hrest := ih (depthAfter depth c)
      rw [outerCommas]
      by_cases hc : c = ',' ∧ depth = 0
      · obtain ⟨rfl, rfl⟩ := hc
        have hrest : (splitParams 0 rest).length = outerCommas (depthAfter 0 ',') rest + 1 := hrest
        rw [splitParams_comma, List.length_cons, hrest, if_pos ⟨rfl, rfl⟩]
        omega
      · obtain ⟨first, items, hsplit⟩ :=
          List.exists_cons_of_ne_nil (splitParams_ne_nil (depthAfter depth c) rest)
        rw [hsplit] at hrest
        rw [splitParams_cons hc hsplit, if_neg hc, Nat.zero_add]
        exact hrest

end Parameters

/-! ## Tokenising a symbol with its parameters -/

section Tokenising

variable {vocabulary : Vocabulary} {lookup : String → Option Float} {symbol : String}

/-- A symbol with a group behind it is scanned to one item. -/
theorem scan_group {raw : String} (hsymbol : IsScannable vocabulary symbol)
    (hraw : isBalanced 0 raw.toList = true) (hblank : ∀ c ∈ raw.toList, Text.isBlank c = false) :
    scan vocabulary (symbol ++ "(" ++ raw ++ ")") = .ok [⟨symbol, some raw⟩] := by
  have htext : (symbol ++ "(" ++ raw ++ ")").toList = itemsText [⟨symbol, some raw⟩] := by
    simp [Item.text, groupText]
  rw [scan_eq_ok_iff]
  refine ⟨?_, ?_⟩
  · rw [chars, Text.compact_eq_self.2, htext]
    rw [htext]
    intro c hc
    simp only [itemsText_cons, itemsText_nil, Item.text, groupText, List.append_nil,
      List.mem_append, List.mem_cons, List.not_mem_nil, or_false] at hc
    rcases hc with hc | rfl | hc | rfl
    · exact not_isBlank_of_knows hsymbol.known hc
    · decide
    · exact hblank c hc
    · decide
  · intro item hitem
    obtain rfl := List.mem_singleton.1 hitem
    refine ⟨hsymbol, ?_⟩
    rintro _ ⟨⟩
    exact hraw

/-- So is tokenised to one letter, with the values of its parameters. -/
theorem tokenize_group {raw : String} (hsymbol : IsScannable vocabulary symbol)
    (hraw : isBalanced 0 raw.toList = true) (hblank : ∀ c ∈ raw.toList, Text.isBlank c = false) :
    tokenize vocabulary lookup (symbol ++ "(" ++ raw ++ ")") =
      (evaluateParams lookup symbol raw.toList).map fun values => [⟨symbol, values⟩] := by
  have hletter : Item.letter lookup ⟨symbol, some raw⟩ =
      (evaluateParams lookup symbol raw.toList).map fun values => ⟨symbol, values⟩ := by
    show (evaluateParams lookup symbol raw.toList >>= fun values =>
      (.ok ⟨symbol, values⟩ : Except PhraseError Letter)) = _
    cases evaluateParams lookup symbol raw.toList <;> rfl
  unfold tokenize
  rw [scan_group hsymbol hraw hblank]
  show [Item.mk symbol (some raw)].mapM (Item.letter lookup) = _
  rw [List.mapM_cons, List.mapM_nil, hletter]
  cases evaluateParams lookup symbol raw.toList <;> rfl

/-- Texts that are parameters are what their list is split into. -/
theorem splitParams_toList_intercalate {items : List String} (hne : items ≠ [])
    (hitems : ∀ item ∈ items, IsParameter 0 item.toList) :
    splitParams 0 (",".intercalate items).toList = items.map String.toList := by
  rw [String.toList_intercalate]
  refine splitParams_intercalate (by simpa using hne) ?_
  intro text htext
  obtain ⟨item, hitem, rfl⟩ := List.mem_map.1 htext
  exact hitems item hitem

/-- Parameters that are joined by commas are evaluated one after another. The list of one empty
parameter is left out: it is written as the group that has no parameters. -/
theorem evaluateParams_intercalate {items : List String} (hne : items ≠ []) (hone : items ≠ [""])
    (hitems : ∀ item ∈ items, IsParameter 0 item.toList) :
    evaluateParams lookup symbol (",".intercalate items).toList =
      items.mapM fun item =>
        (Expression.evaluate lookup item).mapError (.parameter symbol item) := by
  have hsplit := splitParams_toList_intercalate hne hitems
  have hraw : (",".intercalate items).toList ≠ [] := by
    intro hempty
    apply hone
    -- an empty text is split into one empty item
    rw [hempty] at hsplit
    exact (List.map_inj_right fun _ _ h => String.toList_injective h).1 hsplit.symm
  unfold evaluateParams
  rw [if_neg (mt List.isEmpty_iff.1 hraw), hsplit]
  simp only [List.mapM_map, Function.comp_def, String.ofList_toList]

/-- A symbol with its parameters behind it. -/
def withParams (symbol : String) (items : List String) : String :=
  symbol ++ "(" ++ ",".intercalate items ++ ")"

/-- **Parameters are evaluated one by one, and none is lost.** Behind a symbol that can stand in a
phrase, parameters joined by commas denote one letter with their values, provided that they all have
one; otherwise the error is that of the first one that has none. A letter has one parameter more than
there are outer commas. -/
theorem tokenize_params (hsymbol : IsScannable vocabulary symbol)
    (lookup : String → Option Float) {items : List String} (hne : items ≠ []) (hone : items ≠ [""])
    (hitems : ∀ item ∈ items, IsParameter 0 item.toList)
    (hblank : ∀ item ∈ items, ∀ c ∈ item.toList, Text.isBlank c = false) :
    (∀ word, tokenize vocabulary lookup (withParams symbol items) = .ok word ↔
      ∃ values, items.map (Expression.evaluate lookup) = values.map .ok ∧
        word = [⟨symbol, values⟩]) ∧
    (∀ error, tokenize vocabulary lookup (withParams symbol items) = .error error ↔
      ∃ front item rest cause, items = front ++ item :: rest ∧
        (∀ other ∈ front, ∃ value, Expression.evaluate lookup other = .ok value) ∧
        Expression.evaluate lookup item = .error cause ∧ error = .parameter symbol item cause) ∧
    ∀ letter, tokenize vocabulary lookup (withParams symbol items) = .ok [letter] →
      letter.params.length = outerCommas 0 (",".intercalate items).toList + 1 := by
  have hraw : isBalanced 0 (",".intercalate items).toList = true := by
    rw [String.toList_intercalate]
    apply isBalanced_intercalate
    intro text htext
    obtain ⟨item, hitem, rfl⟩ := List.mem_map.1 htext
    exact (hitems item hitem).balanced
  have hspaceless : ∀ c ∈ (",".intercalate items).toList, Text.isBlank c = false := by
    intro c hc
    rw [String.toList_intercalate] at hc
    obtain rfl | ⟨text, htext, hc⟩ := mem_or_mem_of_mem_intercalate hc
    · decide
    · obtain ⟨item, hitem, rfl⟩ := List.mem_map.1 htext
      exact hblank item hitem c hc
  have htokenize : tokenize vocabulary lookup (withParams symbol items) =
      (items.mapM fun item =>
        (Expression.evaluate lookup item).mapError (.parameter symbol item)).map
        fun values => [⟨symbol, values⟩] := by
    rw [withParams, tokenize_group hsymbol hraw hspaceless,
      evaluateParams_intercalate hne hone hitems]
  have hok (word : Word) : tokenize vocabulary lookup (withParams symbol items) = .ok word ↔
      ∃ values, items.map (Expression.evaluate lookup) = values.map .ok ∧
        word = [⟨symbol, values⟩] := by
    rw [htokenize, Outcome.map_eq_ok_iff]
    simp only [Outcome.mapM_mapError_eq_ok_iff]
    constructor
    · rintro ⟨values, hvalues, hword⟩
      exact ⟨values, hvalues, hword.symm⟩
    · rintro ⟨values, hvalues, hword⟩
      exact ⟨values, hvalues, hword.symm⟩
  refine ⟨hok, ?_, ?_⟩
  · intro error
    rw [htokenize, Outcome.map_eq_error_iff, Outcome.mapM_eq_error_iff]
    simp only [Outcome.mapError_eq_ok_iff, Outcome.mapError_eq_error_iff]
    constructor
    · rintro ⟨front, item, rest, hsplit, hfront, cause, hcause, herror⟩
      exact ⟨front, item, rest, cause, hsplit, hfront, hcause, herror.symm⟩
    · rintro ⟨front, item, rest, cause, hsplit, hfront, hcause, herror⟩
      exact ⟨front, item, rest, hsplit, hfront, cause, hcause, herror.symm⟩
  · intro letter hletter
    obtain ⟨values, hvalues, heq⟩ := (hok [letter]).1 hletter
    obtain rfl := List.singleton_inj.1 heq
    have hlength : items.length = values.length := by simpa using congrArg List.length hvalues
    have hcommas := length_splitParams 0 (",".intercalate items).toList
    rw [splitParams_toList_intercalate hne hitems, List.length_map, hlength] at hcommas
    exact hcommas

/-- Two parameters that both have a value, and three of which the empty one has none. -/
theorem tokenize_params_nested :
    IsScannable ⟨latinCapitals, drawingMarks⟩ "F" ∧
      tokenize ⟨latinCapitals, drawingMarks⟩ (fun name => if name = "n" then some 2 else none)
        "F((1+n)*2,n)" = .ok [⟨"F", [6, 2]⟩] ∧
      ∃ cause, tokenize ⟨latinCapitals, drawingMarks⟩ (fun _ => none) "F(2,,n)" =
        .error (.parameter "F" "" cause) := by
  have hsymbol : IsScannable ⟨latinCapitals, drawingMarks⟩ "F" := by
    refine ⟨by decide, by decide, fun start hne hstart hproper => ?_⟩
    rcases List.prefix_cons_iff.1 hstart with rfl | ⟨rest, rfl, hrest⟩
    · exact absurd rfl hne
    · exact absurd (congrArg _ (List.prefix_nil.1 hrest)) hproper
  refine ⟨hsymbol, ?_, ?_⟩
  · have hparameters : ∀ item ∈ ["(1+n)*2", "n"], IsParameter 0 item.toList := by
      simp only [List.forall_mem_cons]
      exact ⟨⟨by decide, by decide⟩, ⟨by decide, by decide⟩, by simp⟩
    have hvalues : ["(1+n)*2", "n"].mapM
        (Expression.evaluate fun name => if name = "n" then some 2 else none) = .ok [6, 2] :=
      Outcome.toOption_eq_some_iff.1 (by decide +kernel)
    have hcompact : ∀ item ∈ ["(1+n)*2", "n"], Text.compact item.toList = item.toList := by
      decide
    exact ((tokenize_params hsymbol _ (by simp) (by simp) hparameters fun item hitem =>
      Text.compact_eq_self.1 (hcompact item hitem)).1 _).2
      ⟨[6, 2], Outcome.mapM_eq_ok_iff.1 hvalues, rfl⟩
  · have hparameters : ∀ item ∈ ["2", "", "n"], IsParameter 0 item.toList := by
      simp only [List.forall_mem_cons]
      exact ⟨⟨by decide, by decide⟩, ⟨by decide, by decide⟩, ⟨by decide, by decide⟩, by simp⟩
    have hfirst : ∃ value, Expression.evaluate (fun _ => none) "2" = .ok value :=
      Outcome.exists_of_isSome (by decide +kernel)
    obtain ⟨cause, hcause⟩ : ∃ cause, Expression.evaluate (fun _ => none) "" = .error cause :=
      Outcome.exists_of_isNone (by decide +kernel)
    have hcompact : ∀ item ∈ ["2", "", "n"], Text.compact item.toList = item.toList := by
      decide
    have herror := (tokenize_params hsymbol (fun _ => none) (by simp) (by simp) hparameters
      fun item hitem => Text.compact_eq_self.1 (hcompact item hitem)).2.1
      (.parameter "F" "" cause)
    exact ⟨cause, herror.2 ⟨["2"], "", ["n"], cause, rfl, by simpa using hfirst, hcause, rfl⟩⟩

end Tokenising

end GrowthGrammar.Phrase
