import GrowthGrammar.Proofs.Derivation.Settling
import GrowthGrammar.Proofs.Production.Validity
import GrowthGrammar.Proofs.Sampling.Reliability

/-!
# The errors that registration leaves

Registering a production checks whatever can be checked without a word. Two errors are left for a
valid rule that has no computation in it and is drawn from reliably (`Rule.MayFail`): the letter does
not carry as many parameters as the rule names, or a parameter of the phrase put for it has no value.
`exists_mayFail_of_settles` says so of an occurrence under any number of such rules.
-/

set_option autoImplicit false

namespace GrowthGrammar

/-! ## Descents -/

/-- A successor that has no computation in it and no weights whose sum overflows, at any depth of
alternatives. -/
inductive Successor.IsForeseeable : Successor → Prop where
  | phrase (text : String) : IsForeseeable (.phrase text)
  | word (word : Word) : IsForeseeable (.word word)
  | stochastic {alternatives : List (Successor × Float)}
      (finite : (totalWeight alternatives).isFinite = true)
      (foreseeable : ∀ alternative ∈ alternatives, IsForeseeable alternative.1) :
      IsForeseeable (.stochastic alternatives)

/-- A leaf that lacks nothing but the values of parameters. -/
inductive Leaf.IsReady (vocabulary : Vocabulary) : Leaf → Prop where
  | phrase {text : String} (scans : ∃ items, Phrase.scan vocabulary text = .ok items) :
      IsReady vocabulary (.phrase text)
  | word {word : Word} (known : vocabulary.Covers (word.map Letter.symbol)) :
      IsReady vocabulary (.word word)

/-- What registration asks of weights is enough to draw by them, unless their sum overflows. -/
theorem isDrawable_weights {alternatives : List (Successor × Float)} (hne : alternatives ≠ [])
    (hweights : ∀ alternative ∈ alternatives,
      alternative.2.isFinite = true ∧ 0 ≤ alternative.2)
    (hpos : 0 < totalWeight alternatives) (hfinite : (totalWeight alternatives).isFinite = true) :
    Sampler.IsDrawable (alternatives.map Prod.snd) := by
  refine ⟨?_, ?_, ?_, ?_⟩
  · simpa using hne
  · intro weight hweight
    obtain ⟨alternative, hmem, rfl⟩ := List.mem_map.1 hweight
    exact Double.isWeight_iff.2 (hweights alternative hmem)
  · rwa [foldl_map_weight]
  · rwa [foldl_map_weight]

/-- A valid successor that is drawn from reliably leads to a leaf that is ready, whatever is picked
on the way. -/
theorem exists_leaf_of_descend {vocabulary : Vocabulary} {sampler : Sampler}
    (hsampler : sampler.IsReliable) (seed : String) {successor : Successor}
    (hforeseeable : successor.IsForeseeable) (hvalid : successor.IsValid vocabulary) :
    ∃ leaf, (successor.descend sampler seed).leaf = .ok leaf ∧ leaf.IsReady vocabulary := by
  induction hforeseeable with
  | phrase text =>
      cases hvalid with
      | phrase scans =>
          rw [Successor.descend]
          exact ⟨_, rfl, .phrase scans⟩
  | word word =>
      cases hvalid with
      | word known =>
          rw [Successor.descend]
          exact ⟨_, rfl, .word known⟩
  | @stochastic alternatives finite _ ih =>
      cases hvalid with
      | stochastic nonempty weights total valid =>
          obtain ⟨pick, hlt, hpick⟩ :=
            hsampler seed _ (isDrawable_weights nonempty weights total finite)
          rw [List.length_map] at hlt
          have hmem := List.getElem_mem hlt
          obtain ⟨leaf, hleaf, hready⟩ := ih _ hmem (valid _ hmem)
          refine ⟨leaf, ?_, hready⟩
          rw [Successor.descend]
          simp only [hpick, descendInto_eq, List.getElem?_eq_getElem hlt, Option.map_some,
            Option.getD_some, hleaf]

/-! ## Scopes and phrases -/

/-- Binding fails only where names are declared and their number is not that of the values. -/
theorem Scope.bind_eq_error_iff {defines : Defines} {symbol : String} {names : List String}
    {values : List Float} {mismatch : ArityMismatch} :
    Scope.bind defines symbol names values = .error mismatch ↔
      names ≠ [] ∧ names.length ≠ values.length ∧
        mismatch = ⟨symbol, names.length, values.length⟩ := by
  unfold Scope.bind
  split
  · next hempty => simp [List.isEmpty_iff.1 hempty]
  · next hne =>
    have hnames : names ≠ [] := fun h => hne (List.isEmpty_iff.2 h)
    split
    · next hlength => simp [hnames, hlength, eq_comm]
    · next hlength => simp [hlength]

namespace Phrase

theorem exists_parameter_of_evaluateParams {lookup : String → Option Float} {symbol : String}
    {raw : List Char} {error : PhraseError} (h : evaluateParams lookup symbol raw = .error error) :
    ∃ text cause, error = .parameter symbol text cause ∧
      Expression.evaluate lookup text = .error cause := by
  unfold evaluateParams at h
  split at h
  · cases h
  · obtain ⟨piece, -, h⟩ := Outcome.exists_of_mapM_eq_error h
    obtain ⟨cause, hcause, rfl⟩ := Outcome.mapError_eq_error_iff.1 h
    exact ⟨_, cause, rfl, hcause⟩

theorem exists_parameter_of_letter {lookup : String → Option Float} {item : Item}
    {error : PhraseError} (h : item.letter lookup = .error error) :
    ∃ text cause, error = .parameter item.symbol text cause ∧
      Expression.evaluate lookup text = .error cause := by
  unfold Item.letter at h
  split at h
  · rcases Outcome.bind_eq_error_iff.1 h with h | ⟨params, -, h⟩
    · exact exists_parameter_of_evaluateParams h
    · cases h
  · cases h

/-- In a phrase that can be scanned only the parameters are left to be at fault. -/
theorem exists_parameter_of_tokenize {vocabulary : Vocabulary} {lookup : String → Option Float}
    {phrase : String} {items : List Item} (hscan : scan vocabulary phrase = .ok items)
    {error : PhraseError} (h : tokenize vocabulary lookup phrase = .error error) :
    ∃ symbol text cause, error = .parameter symbol text cause ∧
      Expression.evaluate lookup text = .error cause := by
  rcases Outcome.bind_eq_error_iff.1 h with h | ⟨items', -, h⟩
  · rw [hscan] at h
    cases h
  · obtain ⟨item, -, h⟩ := Outcome.exists_of_mapM_eq_error h
    exact ⟨item.symbol, exists_parameter_of_letter h⟩

end Phrase

/-! ## Rules -/

/-- The errors that are left for a rule and a letter. -/
inductive Rule.MayFail (rule : Rule) (defines : Defines) (letter : Letter) :
    DerivationError → Prop where
  /-- The rule names parameters, but not as many as the letter carries. -/
  | arity (named : rule.params ≠ []) (differs : rule.params.length ≠ letter.params.length) :
      MayFail rule defines letter
        (.arity ⟨letter.symbol, rule.params.length, letter.params.length⟩)
  /-- A parameter cannot be evaluated, with the names of the rule bound. -/
  | parameter {scope : Scope} {symbol text : String} {cause : ExpressionError}
      (bound : Scope.bind defines letter.symbol rule.params letter.params = .ok scope)
      (fails : Expression.evaluate scope.lookup text = .error cause) :
      MayFail rule defines letter (.phrase (.parameter symbol text cause))

/-- What a rule may come to on a letter: it declines, it puts a known word, or it fails. -/
inductive Setting.Foresees (setting : Setting) (rule : Rule) (letter : Letter) :
    Except DerivationError Resolution → Prop where
  | declined : Foresees setting rule letter (.ok .noMatch)
  | replaced {word : Word} (known : setting.vocabulary.Covers (word.map Letter.symbol)) :
      Foresees setting rule letter (.ok (.replace (.word word)))
  | failed {error : DerivationError} (fails : rule.MayFail setting.defines letter error) :
      Foresees setting rule letter (.error error)

namespace Setting

variable {setting : Setting} {occurrence : Occurrence}

theorem foresees_resolveLeaf {rule : Rule} {leaf : Leaf}
    (hleaf : leaf.IsReady setting.vocabulary) :
    setting.Foresees rule occurrence.letter
      (setting.resolveLeaf rule.params occurrence leaf) := by
  cases hleaf with
  | word known => exact .replaced known
  | @phrase text scans =>
      obtain ⟨items, hitems⟩ := scans
      cases hresult : setting.resolveLeaf rule.params occurrence (.phrase text) with
      | ok resolution =>
          obtain ⟨scope, -, h⟩ := Outcome.bind_eq_ok_iff.1 hresult
          obtain ⟨word, hword, h⟩ := Outcome.bind_eq_ok_iff.1 h
          cases h
          exact .replaced (covers_of_tokenize (Outcome.mapError_eq_ok_iff.1 hword))
      | error error =>
          rcases Outcome.bind_eq_error_iff.1 hresult with h | ⟨scope, hbound, h⟩
          · obtain ⟨mismatch, hmismatch, rfl⟩ := Outcome.mapError_eq_error_iff.1 h
            obtain ⟨hnamed, hdiffers, rfl⟩ := Scope.bind_eq_error_iff.1 hmismatch
            exact .failed (.arity hnamed hdiffers)
          · rcases Outcome.bind_eq_error_iff.1 h with h | ⟨word, -, h⟩
            · obtain ⟨fault, hfault, rfl⟩ := Outcome.mapError_eq_error_iff.1 h
              obtain ⟨symbol, raw, cause, rfl, hcause⟩ :=
                Phrase.exists_parameter_of_tokenize hitems hfault
              exact .failed (.parameter (Outcome.mapError_eq_ok_iff.1 hbound) hcause)
            · cases h

/-- What a valid rule may come to if nothing is computed in it and it is drawn from reliably. -/
theorem foresees_resolve (hsampler : setting.sampler.IsReliable) {rule : Rule}
    (hforeseeable : rule.successor.IsForeseeable)
    (hvalid : rule.successor.IsValid setting.vocabulary) (occurrence : Occurrence) :
    setting.Foresees rule occurrence.letter (setting.resolve rule occurrence) := by
  unfold resolve
  split
  · obtain ⟨leaf, hleaf, hready⟩ :=
      exists_leaf_of_descend hsampler (seed occurrence) hforeseeable hvalid
    rw [hleaf]
    exact foresees_resolveLeaf hready
  · exact .declined

/-- If such rules end with an error, one of them has failed in one of the ways that are left. -/
theorem exists_mayFail_of_settles (hsampler : setting.sampler.IsReliable) {rules : List Rule}
    (hforeseeable : ∀ rule ∈ rules, rule.successor.IsForeseeable)
    (hvalid : ∀ rule ∈ rules, rule.successor.IsValid setting.vocabulary)
    {error : DerivationError} (h : setting.Settles occurrence rules (.error error)) :
    ∃ rule ∈ rules, setting.resolve rule occurrence = .error error ∧
      rule.MayFail setting.defines occurrence.letter error := by
  induction rules with
  | nil => cases h
  | cons rule rest ih =>
      have hforesees := foresees_resolve hsampler (hforeseeable rule List.mem_cons_self)
        (hvalid rule List.mem_cons_self) occurrence
      cases h with
      | declined _ hrest =>
          obtain ⟨failing, hmem, hfailing⟩ :=
            ih (fun r hr => hforeseeable r (List.mem_cons_of_mem _ hr))
              (fun r hr => hvalid r (List.mem_cons_of_mem _ hr)) hrest
          exact ⟨failing, List.mem_cons_of_mem _ hmem, hfailing⟩
      | failed fails =>
          rw [fails] at hforesees
          cases hforesees with
          | failed hmay => exact ⟨rule, List.mem_cons_self, fails, hmay⟩
      | refused replaces refuses =>
          -- the word that is put is known, so it is not refused
          rw [replaces] at hforesees
          cases hforesees with
          | replaced known =>
              obtain ⟨cause, hcause, -⟩ := Outcome.mapError_eq_error_iff.1 refuses
              rw [Source.normalize, checked_of_covers known] at hcause
              cases hcause

end Setting

end GrowthGrammar
