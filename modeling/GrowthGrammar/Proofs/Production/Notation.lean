import GrowthGrammar.Phrase.Group
import GrowthGrammar.Production.Key
import GrowthGrammar.Proofs.Expression.Name
import GrowthGrammar.Proofs.Outcome

/-!
# The notation of keys

Taking a key apart and writing it are inverse to each other (`parse_isWrittenAs`). A key whose
symbol and contexts are free of context marks is recovered from every text that spaces its notation,
and whatever a text is taken apart into is written as that text, blanks aside. The one thing that
writing does not give back is a parameter list with nothing in it.
-/

set_option autoImplicit false

namespace GrowthGrammar

namespace Key

/-! ## Splitting at a mark -/

section Splitting

variable {mark : Char} {cs left right : List Char}

/-- Splitting a text takes one mark out of it and leaves text on both sides. -/
theorem append_of_splitLast? (h : splitLast? mark cs = some (left, right)) :
    left ++ mark :: right = cs ∧ left ≠ [] ∧ right ≠ [] := by
  induction cs generalizing left with
  | nil => cases h
  | cons c rest ih =>
      unfold splitLast? at h
      split at h
      · next front _ hrest =>
        obtain ⟨rfl, rfl⟩ := Prod.mk.inj (Option.some.inj h)
        obtain ⟨heq, -, hright⟩ := ih hrest
        exact ⟨by rw [List.cons_append, heq], List.cons_ne_nil c front, hright⟩
      · split at h
        · next d e behind _ =>
          by_cases hd : d = mark
          · rw [if_pos hd] at h
            obtain ⟨rfl, rfl⟩ := Prod.mk.inj (Option.some.inj h)
            exact ⟨by rw [hd]; rfl, by simp, by simp⟩
          · rw [if_neg hd] at h
            cases h
        · cases h

/-- A text that has the mark at its beginning at most is not split. -/
theorem splitLast?_eq_none (h : mark ∉ cs.tail) : splitLast? mark cs = none := by
  rw [Option.eq_none_iff_forall_ne_some]
  rintro ⟨left, right⟩ hsome
  obtain ⟨rfl, hleft, -⟩ := append_of_splitLast? hsome
  apply h
  rw [List.tail_append_of_ne_nil hleft]
  simp

/-- A text is split at a mark behind which there is no other. -/
theorem splitLast?_append (hleft : left ≠ []) (hright : right ≠ []) (hmark : mark ∉ right) :
    splitLast? mark (left ++ mark :: right) = some (left, right) := by
  induction left with
  | nil => exact absurd rfl hleft
  | cons c front ih =>
      rw [List.cons_append]
      unfold splitLast?
      by_cases hfront : front = []
      · subst hfront
        rw [List.nil_append, splitLast?_eq_none (show mark ∉ (mark :: right).tail from hmark)]
        obtain ⟨e, behind, rfl⟩ := List.exists_cons_of_ne_nil hright
        simp
      · rw [ih hfront]

end Splitting

/-! ## Parameter lists -/

theorem hasParen_eq_false_iff {cs : List Char} :
    hasParen cs = false ↔ ∀ c ∈ cs, c ≠ '(' ∧ c ≠ ')' := by
  simp [hasParen]

/-- A symbol is cut off a parameter list exactly where it is written in front of one. -/
theorem splitParams?_eq_some_iff {cs symbol list : List Char} :
    splitParams? cs = some (symbol, list) ↔
      symbol ++ '(' :: (list ++ [')']) = cs ∧ symbol ≠ [] ∧ hasParen symbol = false ∧
        hasParen list = false := by
  unfold splitParams?
  constructor
  · intro h
    dsimp only at h
    split at h
    · next rest hrest =>
      split at h
      · next names hnames =>
        split at h
        · cases h
        · next hcond =>
          obtain ⟨rfl, rfl⟩ := Prod.mk.inj (Option.some.inj h)
          have hbehind : names.reverse ++ [')'] = rest := by
            rw [← List.reverse_cons, ← hnames, List.reverse_reverse]
          have hcs : cs.takeWhile (· != '(') ++ '(' :: rest = cs := by
            rw [← hrest, List.takeWhile_append_dropWhile]
          simp only [Bool.or_eq_true, not_or, Bool.not_eq_true] at hcond
          obtain ⟨⟨hempty, hsymbol⟩, hnames⟩ := hcond
          refine ⟨by rw [hbehind, hcs], List.isEmpty_eq_false_iff.1 hempty, hsymbol, ?_⟩
          rw [hasParen_eq_false_iff] at hnames ⊢
          exact fun c hc => hnames c (List.mem_reverse.1 hc)
      · cases h
    · cases h
  · rintro ⟨rfl, hne, hsymbol, hlist⟩
    have hbefore : ∀ c ∈ symbol, (c != '(') = true := fun c hc =>
      bne_iff_ne.2 (hasParen_eq_false_iff.1 hsymbol c hc).1
    have hnames : hasParen list.reverse = false := by
      rw [hasParen_eq_false_iff] at hlist ⊢
      exact fun c hc => hlist c (List.mem_reverse.1 hc)
    have hempty : symbol.isEmpty = false := List.isEmpty_eq_false_iff.2 hne
    simp [List.takeWhile_append_of_pos hbefore, List.dropWhile_append_of_pos hbefore, hne, hsymbol,
      hnames]

/-- The pieces between commas are those that the library splits a list into. -/
theorem splitCommas_eq_splitOn (cs : List Char) : splitCommas cs = cs.splitOn ',' := by
  induction cs with
  | nil => rfl
  | cons c rest ih =>
      unfold splitCommas
      rw [List.splitOn_cons_eq_if_modifyHead, ← ih]
      by_cases hc : c = ','
      · simp [hc]
      · rw [if_neg hc, if_neg (by simpa using hc)]
        cases hrest : splitCommas rest with
        | nil => exact absurd (ih ▸ hrest) (List.splitOn_ne_nil ',' rest)
        | cons first pieces => rfl

/-- The characters of a parameter list, parentheses left out. -/
def namesText (names : List String) : List Char :=
  [','].intercalate (names.map String.toList)

/-- Reading the names of a list refuses the first piece that is no identifier. -/
theorem paramNames_eq_mapM {list : List Char} (hne : list ≠ []) :
    paramNames list = (list.splitOn ',').mapM fun piece =>
      let name := String.ofList piece
      if isIdentifier name then .ok name else .error (.badParam name) := by
  unfold paramNames
  rw [if_neg (by simpa using hne), splitCommas_eq_splitOn]

/-- A list is read as names exactly when these are identifiers and its pieces. -/
theorem paramNames_eq_ok_iff {list : List Char} {names : List String} (hne : list ≠ []) :
    paramNames list = .ok names ↔
      list.splitOn ',' = names.map String.toList ∧ ∀ name ∈ names, isIdentifier name = true := by
  rw [paramNames_eq_mapM hne, Outcome.mapM_eq_ok_iff]
  generalize list.splitOn ',' = pieces
  induction pieces generalizing names with
  | nil => cases names <;> simp
  | cons piece pieces ih =>
      cases names with
      | nil => simp
      | cons name names =>
          simp only [List.map_cons, List.cons.injEq, List.forall_mem_cons, ih]
          constructor
          · rintro ⟨hpiece, hpieces, hnames⟩
            split at hpiece
            · next hidentifier =>
              obtain rfl := Except.ok.inj hpiece
              exact ⟨⟨String.toList_ofList.symm, hpieces⟩, hidentifier, hnames⟩
            · cases hpiece
          · rintro ⟨⟨rfl, hpieces⟩, hidentifier, hnames⟩
            rw [String.ofList_toList, if_pos hidentifier]
            exact ⟨rfl, hpieces, hnames⟩

/-- What the characters of a parameter list are. -/
theorem mem_namesText {names : List String} {c : Char} (hc : c ∈ namesText names) :
    c = ',' ∨ ∃ name ∈ names, c ∈ name.toList := by
  obtain rfl | ⟨text, htext, hc⟩ := Phrase.mem_or_mem_of_mem_intercalate hc
  · exact .inl rfl
  · obtain ⟨name, hname, rfl⟩ := List.mem_map.1 htext
    exact .inr ⟨name, hname, hc⟩

/-- Names that a key can show as they are. None has a character that ends a name, a list or a head,
and one empty name alone would look like no name at all. -/
structure IsListable (names : List String) : Prop where
  ne_singleton : names ≠ [""]
  inert : ∀ name ∈ names, ∀ c ∈ name.toList, c ≠ ',' ∧ c ≠ '(' ∧ c ≠ ')' ∧ c ≠ '<' ∧ c ≠ '>'

theorem isListable_of_isIdentifier {names : List String}
    (h : ∀ name ∈ names, isIdentifier name = true) : IsListable names where
  ne_singleton := by
    rintro rfl
    exact absurd (h "" List.mem_cons_self) (by decide)
  inert := by
    intro name hname c hc
    have hchar : isNameChar c = true := isNameChar_of_mem (h name hname) hc
    exact ⟨ne_of_isNameChar hchar rfl, ne_of_isNameChar hchar rfl, ne_of_isNameChar hchar rfl,
      ne_of_isNameChar hchar rfl, ne_of_isNameChar hchar rfl⟩

/-- Names that can be shown are the pieces of their list. -/
theorem splitOn_namesText {names : List String} (hne : names ≠ []) (hnames : IsListable names) :
    (namesText names).splitOn ',' = names.map String.toList := by
  refine List.splitOn_intercalate ',' ?_ (by simpa using hne)
  intro text htext
  obtain ⟨name, hname, rfl⟩ := List.mem_map.1 htext
  exact fun hc => (hnames.inert name hname ',' hc).1 rfl

/-- Their list has characters, unless there are none of them. -/
theorem namesText_ne_nil {names : List String} (hne : names ≠ []) (hnames : IsListable names) :
    namesText names ≠ [] := by
  intro hempty
  have hsplit := splitOn_namesText hne hnames
  rw [hempty, List.splitOn_nil] at hsplit
  exact hnames.ne_singleton
    (List.map_injective_iff.2 (fun _ _ => String.toList_injective) hsplit.symm)

theorem hasParen_namesText {names : List String} (hnames : IsListable names) :
    hasParen (namesText names) = false := by
  rw [hasParen_eq_false_iff]
  intro c hc
  obtain rfl | ⟨name, hname, hc⟩ := mem_namesText hc
  · decide
  · obtain ⟨-, hopen, hclose, -⟩ := hnames.inert name hname c hc
    exact ⟨hopen, hclose⟩

/-- Names that are identifiers are read from their list. -/
theorem paramNames_namesText {names : List String} (hne : names ≠ [])
    (hnames : ∀ name ∈ names, isIdentifier name = true) :
    paramNames (namesText names) = .ok names :=
  have hlistable : IsListable names := isListable_of_isIdentifier hnames
  (paramNames_eq_ok_iff (namesText_ne_nil hne hlistable)).2
    ⟨splitOn_namesText hne hlistable, hnames⟩

/-- Names that are read from a list are identifiers, and the list is what they are written as. -/
theorem namesText_of_paramNames {list : List Char} {names : List String}
    (h : paramNames list = .ok names) :
    namesText names = list ∧ ∀ name ∈ names, isIdentifier name = true := by
  by_cases hlist : list = []
  · subst hlist
    cases h
    exact ⟨rfl, by simp⟩
  · obtain ⟨hsplit, hnames⟩ := (paramNames_eq_ok_iff hlist).1 h
    rw [namesText, ← hsplit, List.intercalate_splitOn]
    exact ⟨rfl, hnames⟩

/-- The first name of a list that is no identifier is what the list is refused for. -/
theorem paramNames_eq_error {names : List String} {bad : String} (hnames : IsListable names)
    (hbad : names.find? (fun name => !isIdentifier name) = some bad) :
    paramNames (namesText names) = .error (.badParam bad) := by
  have hne : names ≠ [] := List.ne_nil_of_mem (List.mem_of_find?_eq_some hbad)
  rw [paramNames_eq_mapM (namesText_ne_nil hne hnames), splitOn_namesText hne hnames,
    Outcome.mapM_eq_error_iff]
  obtain ⟨hname, front, rest, rfl, hfront⟩ := List.find?_eq_some_iff_append.1 hbad
  refine ⟨front.map String.toList, bad.toList, rest.map String.toList, by simp, ?_, ?_⟩
  · intro piece hpiece
    obtain ⟨name, hmem, rfl⟩ := List.mem_map.1 hpiece
    have hidentifier : isIdentifier name = true := by simpa using hfront name hmem
    exact ⟨name, by simp [hidentifier]⟩
  · have hnot : isIdentifier bad = false := by simpa using hname
    simp [hnot]

/-! ## Heads -/

/-- The characters of a symbol with its parameters. Without parameters no list is written. -/
def headText (symbol : String) (params : List String) : List Char :=
  symbol.toList ++ if params.isEmpty then [] else '(' :: (namesText params ++ [')'])

/-- The names behind a symbol are read as those of a list. -/
theorem parseHead_list {symbol list : List Char} (hne : symbol ≠ [])
    (hsymbol : hasParen symbol = false) (hlist : hasParen list = false) :
    parseHead (symbol ++ '(' :: (list ++ [')'])) =
      (paramNames list).map fun names => (String.ofList symbol, names) := by
  have hparen : hasParen (symbol ++ '(' :: (list ++ [')'])) = true := by simp [hasParen]
  have hsplit : splitParams? (symbol ++ '(' :: (list ++ [')'])) = some (symbol, list) :=
    splitParams?_eq_some_iff.2 ⟨rfl, hne, hsymbol, hlist⟩
  unfold parseHead
  rw [if_pos hparen, hsplit]
  show (paramNames list >>= fun names => .ok (String.ofList symbol, names)) = _
  cases paramNames list <;> rfl

/-- A head is read back from what it is written as. -/
theorem parseHead_headText {symbol : String} {params : List String} (hne : symbol ≠ "")
    (hsymbol : hasParen symbol.toList = false)
    (hparams : ∀ name ∈ params, isIdentifier name = true) :
    parseHead (headText symbol params) = .ok (symbol, params) := by
  have hchars : symbol.toList ≠ [] := fun h => hne (String.toList_injective h)
  unfold headText
  by_cases hempty : params = []
  · subst hempty
    simp [parseHead, hsymbol]
  · rw [if_neg (by simpa using hempty), parseHead_list hchars hsymbol
      (hasParen_namesText (isListable_of_isIdentifier hparams)),
      paramNames_namesText hempty hparams, String.ofList_toList]
    rfl

/-- A head is read as what it is written as, but for a list with nothing in it. -/
theorem headText_of_parseHead {cs : List Char} {symbol : String} {params : List String}
    (hne : cs ≠ []) (h : parseHead cs = .ok (symbol, params)) :
    symbol ≠ "" ∧ hasParen symbol.toList = false ∧
      (∀ name ∈ params, isIdentifier name = true) ∧
      (headText symbol params = cs ∨ params = [] ∧ symbol.toList ++ ['(', ')'] = cs) := by
  have hempty {text : List Char} (htext : text ≠ []) : String.ofList text ≠ "" :=
    fun heq => htext (String.ofList_injective heq)
  unfold parseHead at h
  split at h
  · split at h
    · cases h
    · next text list hsplit =>
      obtain ⟨names, hnames, heq⟩ := Outcome.bind_eq_ok_iff.1 h
      obtain ⟨rfl, rfl⟩ := Prod.mk.inj (Except.ok.inj heq)
      obtain ⟨rfl, htext, hparen, -⟩ := splitParams?_eq_some_iff.1 hsplit
      obtain ⟨rfl, hidentifier⟩ := namesText_of_paramNames hnames
      rw [headText, String.toList_ofList]
      refine ⟨hempty htext, hparen, hidentifier, ?_⟩
      by_cases hnone : names = []
      · subst hnone
        exact .inr ⟨rfl, rfl⟩
      · exact .inl (by rw [if_neg (by simpa using hnone)])
  · next hparen =>
    obtain ⟨rfl, rfl⟩ := Prod.mk.inj (Except.ok.inj h)
    rw [headText, String.toList_ofList]
    exact ⟨hempty hne, Bool.eq_false_iff.2 hparen, by simp, .inl (List.append_nil cs)⟩

/-! ## Contexts -/

/-- Splits off the context before the last `<`, if there is one. -/
def splitBefore (cs : List Char) : Option String × List Char :=
  match splitLast? '<' cs with
  | some (left, right) => (some (String.ofList left), right)
  | none => (none, cs)

/-- Splits off the context after the last `>`, if there is one. -/
def splitAfter (cs : List Char) : Option String × List Char :=
  match splitLast? '>' cs with
  | some (left, right) => (some (String.ofList right), left)
  | none => (none, cs)

/-- Whether a text holds a context mark. -/
def hasMark (cs : List Char) : Bool :=
  cs.any fun c => c == '<' || c == '>'

/-- Taking a key apart is splitting off its contexts and reading what is left. -/
theorem parse_eq (source : String) :
    parse source =
      let compact := Text.compact source.toList
      let front := splitBefore compact
      let back := splitAfter front.2
      if compact = [] then .error .empty
      else if hasMark back.2 then .error .misplacedMark
      else (parseHead back.2).map fun (symbol, params) => ⟨symbol, front.1, back.1, params⟩ := by
  have hmap (head : List Char) (before after : Option String) :
      (do
        let (symbol, params) ← parseHead head
        return (⟨symbol, before, after, params⟩ : Key)) =
      (parseHead head).map fun (symbol, params) => ⟨symbol, before, after, params⟩ := by
    cases parseHead head <;> rfl
  unfold parse splitBefore splitAfter hasMark
  dsimp only
  rw [← hmap]
  by_cases hempty : Text.compact source.toList = []
  · rw [if_pos hempty, if_pos (List.isEmpty_iff.2 hempty)]
  · refine (if_neg (mt List.isEmpty_iff.1 hempty)).trans (Eq.trans ?_ (if_neg hempty).symm)
    cases splitLast? '<' (Text.compact source.toList) with
    | none => cases splitLast? '>' (Text.compact source.toList) <;> rfl
    | some parts => cases splitLast? '>' parts.2 <;> rfl

/-- The characters of a context before a head. -/
def beforeText : Option String → List Char
  | some phrase => phrase.toList ++ ['<']
  | none => []

/-- The characters of a context after a head. -/
def afterText : Option String → List Char
  | some phrase => '>' :: phrase.toList
  | none => []

/-- Splitting off a context loses no character, and leaves text if there was some. -/
theorem append_of_splitBefore {cs rest : List Char} {before : Option String}
    (h : splitBefore cs = (before, rest)) :
    beforeText before ++ rest = cs ∧ (cs ≠ [] → rest ≠ []) := by
  unfold splitBefore at h
  split at h
  · next hsplit =>
    obtain ⟨rfl, rfl⟩ := Prod.mk.inj h
    obtain ⟨rfl, -, hright⟩ := append_of_splitLast? hsplit
    simp [beforeText, hright]
  · obtain ⟨rfl, rfl⟩ := Prod.mk.inj h
    simp [beforeText]

theorem append_of_splitAfter {cs head : List Char} {after : Option String}
    (h : splitAfter cs = (after, head)) :
    head ++ afterText after = cs ∧ (cs ≠ [] → head ≠ []) := by
  unfold splitAfter at h
  split at h
  · next hsplit =>
    obtain ⟨rfl, rfl⟩ := Prod.mk.inj h
    obtain ⟨rfl, hleft, -⟩ := append_of_splitLast? hsplit
    simp [afterText, hleft]
  · obtain ⟨rfl, rfl⟩ := Prod.mk.inj h
    simp [afterText]

/-- Text that can stand beside a context mark: there is some, and none of it is a mark. -/
def IsMarkFree (text : List Char) : Prop :=
  text ≠ [] ∧ ∀ c ∈ text, c ≠ '<' ∧ c ≠ '>'

theorem splitBefore_beforeText {before : Option String} {rest : List Char} (hne : rest ≠ [])
    (hrest : '<' ∉ rest) (hbefore : ∀ phrase ∈ before, IsMarkFree phrase.toList) :
    splitBefore (beforeText before ++ rest) = (before, rest) := by
  unfold splitBefore
  cases before with
  | none =>
      rw [beforeText, List.nil_append,
        splitLast?_eq_none fun hmem => hrest (List.mem_of_mem_tail hmem)]
  | some phrase =>
      rw [beforeText, List.append_assoc, List.singleton_append,
        splitLast?_append (hbefore phrase rfl).1 hne hrest]
      simp only [String.ofList_toList]

theorem splitAfter_afterText {head : List Char} {after : Option String} (hhead : IsMarkFree head)
    (hafter : ∀ phrase ∈ after, IsMarkFree phrase.toList) :
    splitAfter (head ++ afterText after) = (after, head) := by
  unfold splitAfter
  cases after with
  | none =>
      rw [afterText, List.append_nil,
        splitLast?_eq_none fun hmem => (hhead.2 '>' (List.mem_of_mem_tail hmem)).2 rfl]
  | some phrase =>
      obtain ⟨hne, hphrase⟩ := hafter phrase rfl
      rw [afterText, splitLast?_append hhead.1 hne fun hmem => (hphrase '>' hmem).2 rfl]
      simp only [String.ofList_toList]

/-! ## Keys -/

/-- The characters of a key with any head between its contexts. -/
def around (key : Key) (head : List Char) : List Char :=
  beforeText key.before ++ (head ++ afterText key.after)

theorem text_eq_around (key : Key) : key.text = key.around (headText key.symbol key.params) := by
  obtain ⟨symbol, before, after, params⟩ := key
  cases before <;> cases after <;>
    simp [text, around, headText, namesText, beforeText, afterText]

/-- No `<` stands behind the context before. -/
theorem not_mem_append_afterText {head : List Char} {after : Option String}
    (hhead : IsMarkFree head) (hafter : ∀ phrase ∈ after, IsMarkFree phrase.toList) :
    '<' ∉ head ++ afterText after := by
  intro hmem
  rcases List.mem_append.1 hmem with hmem | hmem
  · exact (hhead.2 '<' hmem).1 rfl
  · cases after with
    | none => cases hmem
    | some phrase =>
        rcases List.mem_cons.1 hmem with heq | hmem
        · cases heq
        · exact ((hafter phrase rfl).2 '<' hmem).1 rfl

/-- With contexts that are free of marks, a key is taken apart as its head is. -/
theorem parse_around {key : Key} {source : String} {head : List Char}
    (hbefore : ∀ phrase ∈ key.before, IsMarkFree phrase.toList)
    (hafter : ∀ phrase ∈ key.after, IsMarkFree phrase.toList) (hhead : IsMarkFree head)
    (hsource : Text.compact source.toList = key.around head) :
    parse source =
      (parseHead head).map fun (symbol, params) => ⟨symbol, key.before, key.after, params⟩ := by
  have hne : head ++ afterText key.after ≠ [] := List.append_ne_nil_of_left_ne_nil hhead.1 _
  have hrest : '<' ∉ head ++ afterText key.after := not_mem_append_afterText hhead hafter
  have hmark : hasMark head = false := by
    rw [hasMark, List.any_eq_false]
    intro c hc
    simpa using hhead.2 c hc
  rw [parse_eq]
  dsimp only
  rw [hsource, around, splitBefore_beforeText hne hrest hbefore]
  dsimp only
  rw [splitAfter_afterText hhead hafter, if_neg (List.append_ne_nil_of_right_ne_nil _ hne), hmark]
  rfl

/-- A key whose symbol and contexts are free of context marks, and its symbol of parentheses. Its
parameters may be anything. -/
structure IsPlain (key : Key) : Prop where
  symbol_ne : key.symbol ≠ ""
  symbol : ∀ c ∈ key.symbol.toList, c ≠ '<' ∧ c ≠ '>' ∧ c ≠ '(' ∧ c ≠ ')'
  before : ∀ phrase ∈ key.before, IsMarkFree phrase.toList
  after : ∀ phrase ∈ key.after, IsMarkFree phrase.toList

/-- Classic notation of a key, in which an empty parameter list may be written. -/
def IsWrittenAs (key : Key) (cs : List Char) : Prop :=
  key.text = cs ∨ key.params = [] ∧ key.around (key.symbol.toList ++ ['(', ')']) = cs

section Plain

variable {key : Key}

theorem IsPlain.symbol_ne_nil (hkey : key.IsPlain) : key.symbol.toList ≠ [] :=
  fun h => hkey.symbol_ne (String.toList_injective h)

theorem IsPlain.hasParen_symbol (hkey : key.IsPlain) : hasParen key.symbol.toList = false :=
  hasParen_eq_false_iff.2 fun c hc => (hkey.symbol c hc).2.2

/-- A symbol with any list of mark-free text behind it is free of marks. -/
theorem IsPlain.isMarkFree_append (hkey : key.IsPlain) {list : List Char}
    (hlist : ∀ c ∈ list, c ≠ '<' ∧ c ≠ '>') : IsMarkFree (key.symbol.toList ++ list) := by
  refine ⟨List.append_ne_nil_of_left_ne_nil hkey.symbol_ne_nil list, ?_⟩
  intro c hc
  rcases List.mem_append.1 hc with hc | hc
  · exact ⟨(hkey.symbol c hc).1, (hkey.symbol c hc).2.1⟩
  · exact hlist c hc

/-- So is a symbol with names that can be shown. -/
theorem IsPlain.isMarkFree_headText (hkey : key.IsPlain) (hnames : IsListable key.params) :
    IsMarkFree (headText key.symbol key.params) := by
  apply hkey.isMarkFree_append
  intro c hc
  split at hc
  · cases hc
  rcases List.mem_cons.1 hc with rfl | hc
  · decide
  rcases List.mem_append.1 hc with hc | hc
  · obtain rfl | ⟨name, hname, hc⟩ := mem_namesText hc
    · decide
    · exact (hnames.inert name hname c hc).2.2.2
  · rw [List.mem_singleton.1 hc]
    decide

/-- A plain key is taken apart from its notation, however that is spaced. -/
theorem IsPlain.parse_eq_ok (hkey : key.IsPlain)
    (hparams : ∀ name ∈ key.params, isIdentifier name = true) {source : String}
    (hsource : key.IsWrittenAs (Text.compact source.toList)) : parse source = .ok key := by
  rcases hsource with htext | ⟨hnone, htext⟩
  · have hhead : IsMarkFree (headText key.symbol key.params) :=
      hkey.isMarkFree_headText (isListable_of_isIdentifier hparams)
    rw [text_eq_around] at htext
    rw [parse_around hkey.before hkey.after hhead htext.symm,
      parseHead_headText hkey.symbol_ne hkey.hasParen_symbol hparams]
    rfl
  · have hhead : IsMarkFree (key.symbol.toList ++ ['(', ')']) :=
      hkey.isMarkFree_append (by simp)
    have hparse : parseHead (key.symbol.toList ++ ['(', ')']) = .ok (key.symbol, []) := by
      have hlist : parseHead (key.symbol.toList ++ '(' :: ([] ++ [')'])) =
          .ok (String.ofList key.symbol.toList, []) :=
        parseHead_list hkey.symbol_ne_nil hkey.hasParen_symbol rfl
      rwa [String.ofList_toList] at hlist
    rw [parse_around hkey.before hkey.after hhead htext.symm, hparse]
    show Except.ok (⟨key.symbol, key.before, key.after, []⟩ : Key) = .ok key
    rw [← hnone]

/-- A plain key that names something else than identifiers is refused for the first such name. -/
theorem IsPlain.parse_eq_error (hkey : key.IsPlain) (hnames : IsListable key.params) {bad : String}
    (hbad : key.params.find? (fun name => !isIdentifier name) = some bad) {source : String}
    (hsource : Text.compact source.toList = key.text) :
    parse source = .error (.badParam bad) := by
  have hne : key.params ≠ [] := List.ne_nil_of_mem (List.mem_of_find?_eq_some hbad)
  have hparse : parseHead (headText key.symbol key.params) = .error (.badParam bad) := by
    rw [headText, if_neg (by simpa using hne), parseHead_list hkey.symbol_ne_nil
      hkey.hasParen_symbol (hasParen_namesText hnames), paramNames_eq_error hnames hbad]
    rfl
  rw [text_eq_around] at hsource
  rw [parse_around hkey.before hkey.after (hkey.isMarkFree_headText hnames) hsource, hparse]
  rfl

end Plain

/-- What a key has been taken apart from: a head without marks, and its contexts around it. -/
theorem exists_head_of_parse {source : String} {key : Key} (h : parse source = .ok key) :
    ∃ head, IsMarkFree head ∧ parseHead head = .ok (key.symbol, key.params) ∧
      key.around head = Text.compact source.toList := by
  rw [parse_eq] at h
  dsimp only at h
  rcases hfront : splitBefore (Text.compact source.toList) with ⟨before, rest⟩
  rw [hfront] at h
  dsimp only at h
  rcases hback : splitAfter rest with ⟨after, head⟩
  rw [hback] at h
  by_cases hempty : Text.compact source.toList = []
  · rw [if_pos hempty] at h
    cases h
  by_cases hmark : hasMark head = true
  · rw [if_neg hempty, if_pos hmark] at h
    cases h
  rw [if_neg hempty, if_neg hmark] at h
  obtain ⟨⟨symbol, params⟩, hhead, rfl⟩ := Outcome.map_eq_ok_iff.1 h
  obtain ⟨hrest, hrest_ne⟩ := append_of_splitBefore hfront
  obtain ⟨rfl, hhead_ne⟩ := append_of_splitAfter hback
  have hclear : ∀ c ∈ head, c ≠ '<' ∧ c ≠ '>' := by
    intro c hc
    have hany := List.any_eq_false.1 (Bool.eq_false_iff.2 hmark) c hc
    simpa using hany
  exact ⟨head, ⟨hhead_ne (hrest_ne hempty), hclear⟩, hhead, hrest⟩

/-- What a text is taken apart into is written as that text. -/
theorem isWrittenAs_of_parse {source : String} {key : Key} (h : parse source = .ok key) :
    key.symbol ≠ "" ∧
      (∀ c ∈ key.symbol.toList,
        c ≠ '<' ∧ c ≠ '>' ∧ c ≠ '(' ∧ c ≠ ')' ∧ Text.isBlank c = false) ∧
      (∀ name ∈ key.params, isIdentifier name = true) ∧
      key.IsWrittenAs (Text.compact source.toList) := by
  obtain ⟨head, ⟨hne, hclear⟩, hparse, haround⟩ := exists_head_of_parse h
  obtain ⟨hsymbol_ne, hparen, hparams, hwritten⟩ := headText_of_parseHead hne hparse
  have hsymbol : ∀ c ∈ key.symbol.toList, c ∈ head := by
    intro c hc
    rcases hwritten with rfl | ⟨-, rfl⟩ <;> exact List.mem_append_left _ hc
  have hblank : ∀ c ∈ head, Text.isBlank c = false := by
    intro c hc
    have hmem : c ∈ Text.compact source.toList := by
      rw [← haround]
      exact List.mem_append_right _ (List.mem_append_left _ hc)
    exact (Text.mem_compact.1 hmem).2
  refine ⟨hsymbol_ne, ?_, hparams, ?_⟩
  · intro c hc
    obtain ⟨hbefore, hafter⟩ := hclear c (hsymbol c hc)
    obtain ⟨hopen, hclose⟩ := hasParen_eq_false_iff.1 hparen c hc
    exact ⟨hbefore, hafter, hopen, hclose, hblank c (hsymbol c hc)⟩
  · rcases hwritten with rfl | ⟨hnone, rfl⟩
    · exact .inl (by rw [text_eq_around, haround])
    · exact .inr ⟨hnone, haround⟩

/-- **Taking keys apart and writing them are inverse to each other.** A key whose symbol and
contexts are plain and whose parameters are identifiers is what every spacing of its notation is
taken apart into. Conversely, whatever a text is taken apart into has a plain symbol and identifiers
for parameters, and its notation is the text without blanks, up to an empty parameter list. -/
theorem parse_isWrittenAs :
    (∀ (key : Key) (source : String), key.IsPlain →
      (∀ name ∈ key.params, isIdentifier name = true) →
      key.IsWrittenAs (Text.compact source.toList) → parse source = .ok key) ∧
    ∀ (source : String) (key : Key), parse source = .ok key →
      key.symbol ≠ "" ∧
        (∀ c ∈ key.symbol.toList,
          c ≠ '<' ∧ c ≠ '>' ∧ c ≠ '(' ∧ c ≠ ')' ∧ Text.isBlank c = false) ∧
        (∀ name ∈ key.params, isIdentifier name = true) ∧
        key.IsWrittenAs (Text.compact source.toList) :=
  ⟨fun _ _ hkey hparams hsource => hkey.parse_eq_ok hparams hsource,
    fun _ _ h => isWrittenAs_of_parse h⟩

/-- A spaced key with both contexts and two parameters, taken apart and written again. -/
theorem parse_isWrittenAs_spaced :
    parse "B[C(1, 2)] < F( len, w )\t> D" = .ok ⟨"F", some "B[C(1,2)]", some "D", ["len", "w"]⟩ ∧
      IsWrittenAs ⟨"F", some "B[C(1,2)]", some "D", ["len", "w"]⟩
        (Text.compact "B[C(1, 2)] < F( len, w )\t> D".toList) := by
  have hplain : IsPlain ⟨"F", some "B[C(1,2)]", some "D", ["len", "w"]⟩ :=
    { symbol_ne := by decide
      symbol := by simp
      before := by simp [IsMarkFree]
      after := by simp [IsMarkFree] }
  have hparse := parse_isWrittenAs.1 ⟨"F", some "B[C(1,2)]", some "D", ["len", "w"]⟩
    "B[C(1, 2)] < F( len, w )\t> D" hplain (by decide) (.inl (by decide +kernel))
  exact ⟨hparse, (parse_isWrittenAs.2 _ _ hparse).2.2.2⟩

end Key

end GrowthGrammar
