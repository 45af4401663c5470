import GrowthGrammar.Proofs.Derivation.Binding

/-!
# Names that a rule declares hide the defines

Of the defines, the phrase that is put for a letter sees only those that its parameters mention and
that the rule does not declare itself. Two tables that agree on these names give the same result, be
it a replacement or an error (`resolve_eq_of_agree`); what they hold under the declared names never
matters. The reason is carried from the inside out: the value of a tree depends on the names in it
(`eval_congr`), the word of a phrase on the names in its parameters (`tokenize_congr`), and a scope
finds a declared name before it comes to the defines (`Scope.lookup_congr`).
-/

set_option autoImplicit false

namespace GrowthGrammar

/-! ## Names in phrases -/

namespace Phrase

variable {vocabulary : Vocabulary} {lookup other : String → Option Float} {item : Item}
  {text : String}

/-- The names that the parameters of an item mention. -/
def Item.mentioned (item : Item) : List String :=
  match item.raw with
  | some raw =>
    (splitParams 0 raw.toList).flatMap fun param => Expression.mentioned (String.ofList param)
  | none => []

/-- The names that the parameters in a phrase mention. A text that is no phrase mentions none. -/
def mentioned (vocabulary : Vocabulary) (text : String) : List String :=
  match scan vocabulary text with
  | .ok items => items.flatMap Item.mentioned
  | .error _ => []

theorem evaluateParams_congr {symbol : String} {raw : List Char}
    (h : ∀ param ∈ splitParams 0 raw, ∀ name ∈ Expression.mentioned (String.ofList param),
      lookup name = other name) :
    evaluateParams lookup symbol raw = evaluateParams other symbol raw := by
  unfold evaluateParams
  split
  · rfl
  · refine Outcome.mapM_congr fun param hparam => ?_
    dsimp only
    rw [Expression.evaluate_congr (h param hparam)]

theorem letter_congr (h : ∀ name ∈ item.mentioned, lookup name = other name) :
    item.letter lookup = item.letter other := by
  obtain ⟨symbol, raw⟩ := item
  cases raw with
  | none => rfl
  | some raw =>
      have hparams : evaluateParams lookup symbol raw.toList =
          evaluateParams other symbol raw.toList :=
        evaluateParams_congr fun param hparam name hname =>
          h name (List.mem_flatMap.2 ⟨param, hparam, hname⟩)
      rw [Item.letter, Item.letter]
      show (evaluateParams lookup symbol raw.toList >>= _) =
        evaluateParams other symbol raw.toList >>= _
      rw [hparams]

/-- The word that a phrase denotes depends on the names that it mentions alone. -/
theorem tokenize_congr (h : ∀ name ∈ mentioned vocabulary text, lookup name = other name) :
    tokenize vocabulary lookup text = tokenize vocabulary other text := by
  unfold mentioned at h
  unfold tokenize
  cases hscan : scan vocabulary text with
  | error cause => rfl
  | ok items =>
      rw [hscan] at h
      show items.mapM (Item.letter lookup) = items.mapM (Item.letter other)
      refine Outcome.mapM_congr fun item hitem => letter_congr fun name hname => ?_
      exact h name (List.mem_flatMap.2 ⟨item, hitem, hname⟩)

end Phrase

/-! ## Names in scopes -/

namespace Scope

/-- A name that is bound is not looked up in the defines. -/
theorem lookup_congr {first second : Defines} {bound : List (String × Float)} {name : String}
    (h : name ∉ bound.map Prod.fst → first.get? name = second.get? name) :
    Scope.lookup ⟨first, bound⟩ name = Scope.lookup ⟨second, bound⟩ name := by
  unfold lookup
  cases hfound : bound.reverse.lookup name with
  | some value => rfl
  | none =>
      refine h fun hname => ?_
      obtain ⟨binding, hbinding, rfl⟩ := List.mem_map.1 hname
      have hnone := List.lookup_eq_none_iff.1 hfound binding (List.mem_reverse.2 hbinding)
      exact bne_iff_ne.1 hnone rfl

/-- Whether names can be bound, and to what, has nothing to do with the defines. -/
theorem bind_cases (symbol : String) (names : List String) (values : List Float) :
    (∃ mismatch, ∀ defines, Scope.bind defines symbol names values = .error mismatch) ∨
      ∃ bound : List (String × Float), bound.map Prod.fst = names ∧
        ∀ defines, Scope.bind defines symbol names values = .ok ⟨defines, bound⟩ := by
  by_cases hnamed : names = []
  · subst hnamed
    exact .inr ⟨[], rfl, fun defines => rfl⟩
  · by_cases hlength : names.length = values.length
    · exact .inr ⟨names.zip values, List.map_fst_zip hlength.le,
        fun defines => bind_of_length_eq hnamed hlength⟩
    · exact .inl ⟨_, fun defines => bind_eq_error_iff.2 ⟨hnamed, hlength, rfl⟩⟩

end Scope

/-! ## Putting a phrase -/

namespace Setting

/-- The draws for an occurrence lead to this phrase of the rule, at the top or inside sets of
alternatives. -/
def Chooses (setting : Setting) (rule : Rule) (occurrence : Occurrence) (text : String) : Prop :=
  ∃ path, rule.successor.LeadsTo path (.phrase text) ∧
    ∀ step ∈ path, setting.sampler (seed occurrence) (step.1.map Prod.snd) = .ok step.2

variable {setting : Setting} {occurrence : Occurrence} {first second : Defines}

theorem resolveLeaf_phrase_congr {params : List String} {text : String}
    (h : ∀ name ∈ Phrase.mentioned setting.vocabulary text, name ∉ params →
      first.get? name = second.get? name) :
    { setting with defines := first }.resolveLeaf params occurrence (.phrase text) =
      { setting with defines := second }.resolveLeaf params occurrence (.phrase text) := by
  rcases Scope.bind_cases occurrence.letter.symbol params occurrence.letter.params with
    ⟨mismatch, hbind⟩ | ⟨bound, hbound, hbind⟩
  · rw [resolveLeaf_phrase_of_mismatch (hbind first), resolveLeaf_phrase_of_mismatch (hbind second)]
  · rw [resolveLeaf_phrase_of_bind (hbind first), resolveLeaf_phrase_of_bind (hbind second)]
    have hword : Phrase.tokenize setting.vocabulary (Scope.lookup ⟨first, bound⟩) text =
        Phrase.tokenize setting.vocabulary (Scope.lookup ⟨second, bound⟩) text :=
      Phrase.tokenize_congr fun name hname =>
        Scope.lookup_congr fun hnot => h name hname (hbound ▸ hnot)
    rw [hword]

/-- **Declared names hide the defines.** Two tables of defines give the same result for an occurrence,
replacement or error, if they agree on the names outside of those that the rule declares; and of
these only on the names that the phrase mentions to which the draws lead, if they lead to one. How
many parameters the occurrence has, and whether the rule declares names at all, does not matter. -/
theorem resolve_eq_of_agree (setting : Setting) (rule : Rule) (occurrence : Occurrence)
    (first second : Defines) :
    ((∀ name, name ∉ rule.params → first.get? name = second.get? name) →
      { setting with defines := first }.resolve rule occurrence =
        { setting with defines := second }.resolve rule occurrence) ∧
    ((∀ text, setting.Chooses rule occurrence text →
        ∀ name ∈ Phrase.mentioned setting.vocabulary text, name ∉ rule.params →
          first.get? name = second.get? name) →
      { setting with defines := first }.resolve rule occurrence =
        { setting with defines := second }.resolve rule occurrence) := by
  have hmentioned : (∀ text, setting.Chooses rule occurrence text →
      ∀ name ∈ Phrase.mentioned setting.vocabulary text, name ∉ rule.params →
        first.get? name = second.get? name) →
      { setting with defines := first }.resolve rule occurrence =
        { setting with defines := second }.resolve rule occurrence := by
    intro h
    -- neither the condition, nor the surroundings, nor the draws see the defines
    have hadmits : { setting with defines := first }.admits rule occurrence =
        { setting with defines := second }.admits rule occurrence := rfl
    rw [resolve, resolve, hadmits]
    refine if_congr Iff.rfl ?_ rfl
    dsimp only
    cases hleaf : (rule.successor.descend setting.sampler (seed occurrence)).leaf with
    | error cause => rfl
    | ok leaf =>
        cases leaf with
        | phrase text => exact resolveLeaf_phrase_congr (h text (exists_path_of_descend _ hleaf))
        | word word => rfl
        | computed result => rfl
  exact ⟨fun h => hmentioned fun text _ name _ hname => h name hname, hmentioned⟩

/-- A rule of F that names both parameters, for the phrases with them doubled or exchanged. -/
def exchanging : Rule where
  symbol := "F"
  successor := .stochastic exchange
  surroundings := none
  condition := none
  params := ["x", "y"]

/-- Defines of x and y, or of x alone, are hidden when F(1,2) is replaced. A define of z is not, but
neither phrase mentions it. -/
theorem resolve_eq_of_agree_exchanging :
    { standard with defines := Table.empty.insert "x" 7 }.resolve exchanging
        ⟨[⟨"F", [1, 2]⟩], 0, ⟨"F", [1, 2]⟩⟩ = .ok (.replace (.word [⟨"F", [2, 1]⟩])) ∧
      { standard with defines := (Table.empty.insert "x" 3).insert "y" 5 }.resolve exchanging
        ⟨[⟨"F", [1, 2]⟩], 0, ⟨"F", [1, 2]⟩⟩ = .ok (.replace (.word [⟨"F", [2, 1]⟩])) ∧
      { standard with defines := Table.empty.insert "z" 9 }.resolve exchanging
        ⟨[⟨"F", [1, 2]⟩], 0, ⟨"F", [1, 2]⟩⟩ = .ok (.replace (.word [⟨"F", [2, 1]⟩])) := by
  have hvalue : { standard with defines := Table.empty.insert "x" 7 }.resolve exchanging
      ⟨[⟨"F", [1, 2]⟩], 0, ⟨"F", [1, 2]⟩⟩ = .ok (.replace (.word [⟨"F", [2, 1]⟩])) := by
    decide +kernel
  have hhidden : ∀ name, name ∉ exchanging.params →
      ((Table.empty.insert "x" 3).insert "y" 5 : Defines).get? name =
        (Table.empty.insert "x" 7 : Defines).get? name := by
    intro name hname
    simp only [exchanging, List.mem_cons, List.not_mem_nil, or_false, not_or] at hname
    simp [Table.get?_insert, Table.get?_empty, hname.1, hname.2]
  have hmentioned : ∀ text, standard.Chooses exchanging ⟨[⟨"F", [1, 2]⟩], 0, ⟨"F", [1, 2]⟩⟩ text →
      ∀ name ∈ Phrase.mentioned standard.vocabulary text, name ∉ exchanging.params →
        (Table.empty.insert "z" 9 : Defines).get? name =
          (Table.empty.insert "x" 7 : Defines).get? name := by
    rintro text ⟨path, hpath, -⟩ name hname hnot
    have hdeclared : Phrase.mentioned standard.vocabulary text ⊆ exchanging.params := by
      cases hpath with
      | into taken behind =>
          have hmem := List.mem_of_getElem? taken
          simp only [exchange, List.mem_cons, List.not_mem_nil, or_false] at hmem
          rcases hmem with rfl | rfl <;> cases behind <;> decide +kernel
    exact absurd (hdeclared hname) hnot
  exact ⟨hvalue, ((resolve_eq_of_agree standard exchanging _ _ _).1 hhidden).trans hvalue,
    ((resolve_eq_of_agree standard exchanging _ _ _).2 hmentioned).trans hvalue⟩

end Setting

end GrowthGrammar
