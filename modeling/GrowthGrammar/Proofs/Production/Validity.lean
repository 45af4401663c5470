import GrowthGrammar.Production.Registration
import GrowthGrammar.Proofs.Double.Sum
import GrowthGrammar.Proofs.Outcome
import GrowthGrammar.Proofs.Phrase.Grammar

/-!
# Valid rules

What registering a production establishes about the rule that is kept: its symbol is active, its
surroundings name known symbols alone, and its successor is valid at every depth, that is, phrases
can be scanned, words are known, and every set of alternatives can be drawn from.
-/

set_option autoImplicit false

namespace GrowthGrammar

/-! ## Known symbols -/

/-- Whether a vocabulary knows every symbol of a list. -/
def Vocabulary.Covers (vocabulary : Vocabulary) (symbols : List String) : Prop :=
  ∀ symbol ∈ symbols, vocabulary.knows symbol = true

theorem covers_of_ensureKnown {vocabulary : Vocabulary} {symbols : List String}
    (h : vocabulary.ensureKnown symbols = .ok ()) : vocabulary.Covers symbols := by
  unfold Vocabulary.ensureKnown at h
  split at h
  · cases h
  · next hnone =>
    intro symbol hsymbol
    simpa using List.find?_eq_none.1 hnone symbol hsymbol

theorem ensureKnown_of_covers {vocabulary : Vocabulary} {symbols : List String}
    (h : vocabulary.Covers symbols) : vocabulary.ensureKnown symbols = .ok () := by
  have hnone : symbols.find? (fun symbol => !vocabulary.knows symbol) = none := by
    rw [List.find?_eq_none]
    intro symbol hsymbol
    simp [h symbol hsymbol]
  unfold Vocabulary.ensureKnown
  rw [hnone]

/-- The items of a phrase have known symbols. -/
theorem covers_of_scan {vocabulary : Vocabulary} {phrase : String} {items : List Phrase.Item}
    (h : Phrase.scan vocabulary phrase = .ok items) :
    vocabulary.Covers (items.map Phrase.Item.symbol) := by
  intro symbol hsymbol
  obtain ⟨item, hitem, rfl⟩ := List.mem_map.1 hsymbol
  exact ((Phrase.scan_eq_ok_iff.1 h).wellFormed item hitem).scannable.known

theorem covers_of_symbols {vocabulary : Vocabulary} {phrase : String} {symbols : List String}
    (h : Phrase.symbols vocabulary phrase = .ok symbols) : vocabulary.Covers symbols := by
  obtain ⟨items, hitems, hsymbols⟩ := Outcome.bind_eq_ok_iff.1 h
  cases hsymbols
  exact covers_of_scan hitems

/-! ## Known words -/

theorem covers_of_tokenize {vocabulary : Vocabulary} {lookup : String → Option Float}
    {phrase : String} {word : Word} (h : Phrase.tokenize vocabulary lookup phrase = .ok word) :
    vocabulary.Covers (word.map Letter.symbol) := by
  obtain ⟨items, hitems, hword⟩ := Outcome.bind_eq_ok_iff.1 h
  intro symbol hsymbol
  obtain ⟨letter, hletter, rfl⟩ := List.mem_map.1 hsymbol
  obtain ⟨item, hitem, hof⟩ := Outcome.exists_of_mem_mapM hword hletter
  rw [Phrase.symbol_of_letter hof]
  exact covers_of_scan hitems _ (List.mem_map_of_mem hitem)

theorem covers_of_checked {vocabulary : Vocabulary} {word checked : Word}
    (h : Word.checked vocabulary word = .ok checked) :
    vocabulary.Covers (checked.map Letter.symbol) := by
  obtain ⟨_, hknown, heq⟩ := Outcome.bind_eq_ok_iff.1 h
  cases heq
  exact covers_of_ensureKnown hknown

theorem checked_of_covers {vocabulary : Vocabulary} {word : Word}
    (h : vocabulary.Covers (word.map Letter.symbol)) :
    Word.checked vocabulary word = .ok word :=
  Outcome.bind_eq_ok_iff.2 ⟨(), ensureKnown_of_covers h, rfl⟩

/-- Whatever a word was given as, its symbols are known once it is normalised. -/
theorem covers_of_normalize {vocabulary : Vocabulary} {lookup : String → Option Float}
    {source : Source} {word : Word} (h : source.normalize vocabulary lookup = .ok word) :
    vocabulary.Covers (word.map Letter.symbol) := by
  cases source with
  | phrase text => exact covers_of_tokenize h
  | word letters => exact covers_of_checked h
  | letter l => exact covers_of_checked h

/-! ## Successors -/

/-- The sum of the weights of alternatives, added up in order. -/
def totalWeight (alternatives : List (Successor × Float)) : Float :=
  alternatives.foldl (fun total alternative => total + alternative.2) 0

theorem foldl_map_weight (alternatives : List (Successor × Float)) :
    (alternatives.map Prod.snd).foldl (· + ·) 0 = totalWeight alternatives :=
  List.foldl_map

/-- A successor with nothing in it that the vocabulary refuses, at any depth of alternatives. -/
inductive Successor.IsValid (vocabulary : Vocabulary) : Successor → Prop where
  | phrase {text : String} (scans : ∃ items, Phrase.scan vocabulary text = .ok items) :
      IsValid vocabulary (.phrase text)
  | word {word : Word} (known : vocabulary.Covers (word.map Letter.symbol)) :
      IsValid vocabulary (.word word)
  | computed (result : Occurrence → Resolution) : IsValid vocabulary (.computed result)
  | stochastic {alternatives : List (Successor × Float)} (nonempty : alternatives ≠ [])
      (weights : ∀ alternative ∈ alternatives,
        alternative.2.isFinite = true ∧ 0 ≤ alternative.2)
      (total : 0 < totalWeight alternatives)
      (valid : ∀ alternative ∈ alternatives, IsValid vocabulary alternative.1) :
      IsValid vocabulary (.stochastic alternatives)

mutual

/-- A successor that passes its check is valid. -/
theorem isValid_of_validate {vocabulary : Vocabulary} {symbol : String} :
    ∀ successor : Successor, successor.validate vocabulary symbol = .ok () →
      successor.IsValid vocabulary
  | .phrase text => by
      intro h
      rw [Successor.validate] at h
      obtain ⟨items, hitems, -⟩ := Outcome.bind_eq_ok_iff.1 h
      exact .phrase ⟨items, Outcome.mapError_eq_ok_iff.1 hitems⟩
  | .word word => by
      intro h
      rw [Successor.validate] at h
      exact .word (covers_of_ensureKnown (Outcome.mapError_eq_ok_iff.1 h))
  | .computed result => fun _ => .computed result
  | .stochastic alternatives => by
      intro h
      rw [Successor.validate] at h
      split at h
      · cases h
      · next hempty =>
        obtain ⟨total, htotal, h⟩ := Outcome.bind_eq_ok_iff.1 h
        obtain ⟨rfl, hnonneg, halternatives⟩ := alternatives_of_validate alternatives 0 total
          trivial htotal
        split at h
        · cases h
        · next hle =>
          refine .stochastic ?_ ?_ (Double.pos_of_not_le_zero hnonneg hle) ?_
          · rintro rfl
            exact hempty rfl
          · exact fun alternative ha => Double.isWeight_iff.1 (halternatives alternative ha).1
          · exact fun alternative ha => (halternatives alternative ha).2

/-- Alternatives that pass their check have weights that add up to what the check yields. -/
theorem alternatives_of_validate {vocabulary : Vocabulary} {symbol : String} :
    ∀ (alternatives : List (Successor × Float)) (start total : Float),
      Double.IsNonneg start.toModel.unpack →
      validateAlternatives vocabulary symbol start alternatives = .ok total →
      total = alternatives.foldl (fun sum alternative => sum + alternative.2) start ∧
      Double.IsNonneg total.toModel.unpack ∧
      ∀ alternative ∈ alternatives,
        isWeight alternative.2 = true ∧ alternative.1.IsValid vocabulary
  | [], start, total => by
      intro hstart h
      rw [validateAlternatives] at h
      cases h
      exact ⟨rfl, hstart, by simp⟩
  | (successor, weight) :: rest, start, total => by
      intro hstart h
      rw [validateAlternatives] at h
      split at h
      · next hweight =>
        obtain ⟨_, hsuccessor, h⟩ := Outcome.bind_eq_ok_iff.1 h
        -- the weights are added from the left, so the induction is on any sum so far
        have hsum := Double.isNonneg_sum hstart (Double.isNonneg_of_isWeight hweight)
        obtain ⟨htotal, hnonneg, hrest⟩ := alternatives_of_validate rest _ total hsum h
        refine ⟨htotal, hnonneg, ?_⟩
        intro alternative ha
        rcases List.mem_cons.1 ha with rfl | ha
        · exact ⟨hweight, isValid_of_validate successor hsuccessor⟩
        · exact hrest alternative ha
      · cases h

end

/-- Alternatives with weights to draw by and successors that pass pass their check. -/
theorem validateAlternatives_eq_ok {vocabulary : Vocabulary} {symbol : String}
    {alternatives : List (Successor × Float)} (start : Float)
    (hweights : ∀ alternative ∈ alternatives, isWeight alternative.2 = true)
    (hvalid : ∀ alternative ∈ alternatives,
      alternative.1.validate vocabulary symbol = .ok ()) :
    validateAlternatives vocabulary symbol start alternatives =
      .ok (alternatives.foldl (fun sum alternative => sum + alternative.2) start) := by
  induction alternatives generalizing start with
  | nil => rw [validateAlternatives]; rfl
  | cons alternative rest ih =>
      rw [List.forall_mem_cons] at hweights hvalid
      rw [validateAlternatives, if_pos hweights.1, hvalid.1]
      exact ih (start + alternative.2) hweights.2 hvalid.2

/-- A valid successor passes its check, whatever the symbol that it is checked for. -/
theorem validate_of_isValid {vocabulary : Vocabulary} (symbol : String) {successor : Successor}
    (h : successor.IsValid vocabulary) : successor.validate vocabulary symbol = .ok () := by
  induction h with
  | phrase scans =>
      obtain ⟨items, hitems⟩ := scans
      rw [Successor.validate, hitems]
      rfl
  | word known =>
      rw [Successor.validate, ensureKnown_of_covers known]
      rfl
  | computed result => rw [Successor.validate]
  | @stochastic alternatives nonempty weights total valid ih =>
      have hweights : ∀ alternative ∈ alternatives, isWeight alternative.2 = true :=
        fun alternative ha => Double.isWeight_iff.2 (weights alternative ha)
      rw [Successor.validate, if_neg (by simpa using nonempty),
        validateAlternatives_eq_ok 0 hweights ih]
      exact if_neg (Double.not_le_zero_of_pos total)

/-! ## Rules -/

/-- The symbols that a pattern asks for are known once they have been read. -/
theorem covers_of_resolve {vocabulary : Vocabulary} {pattern : Pattern} {symbols : List String}
    (h : pattern.resolve vocabulary = .ok symbols) : vocabulary.Covers symbols := by
  cases pattern with
  | phrase text => exact covers_of_symbols h
  | symbols listed =>
      obtain ⟨_, hknown, hlisted⟩ := Outcome.bind_eq_ok_iff.1 h
      cases hlisted
      exact covers_of_ensureKnown hknown

/-- Surroundings that name known symbols alone, on either side. -/
structure Surroundings.IsCovered (vocabulary : Vocabulary) (surroundings : Surroundings) :
    Prop where
  before : ∀ symbols ∈ surroundings.before, vocabulary.Covers symbols
  after : ∀ symbols ∈ surroundings.after, vocabulary.Covers symbols

/-- A rule that a system may keep. -/
structure Rule.IsValid (vocabulary : Vocabulary) (rule : Rule) : Prop where
  active : rule.symbol ∈ vocabulary.active
  surroundings : ∀ surroundings ∈ rule.surroundings, surroundings.IsCovered vocabulary
  successor : rule.successor.IsValid vocabulary

theorem isCovered_of_resolve {vocabulary : Vocabulary} {context : Context}
    {surroundings : Surroundings} (h : context.resolve vocabulary = .ok surroundings) :
    surroundings.IsCovered vocabulary := by
  -- the two sides are read alike
  have hside : ∀ {pattern : Option Pattern} {read : Option (List String)},
      pattern.mapM (Pattern.resolve vocabulary) = .ok read →
      ∀ symbols ∈ read, vocabulary.Covers symbols := by
    intro pattern read hread symbols hsymbols
    cases pattern with
    | none =>
        cases hread
        cases hsymbols
    | some pattern =>
        obtain ⟨found, hfound, rfl⟩ := Outcome.map_eq_ok_iff.1 hread
        cases hsymbols
        exact covers_of_resolve hfound
  obtain ⟨before, hbefore, h⟩ := Outcome.bind_eq_ok_iff.1 h
  obtain ⟨after, hafter, h⟩ := Outcome.bind_eq_ok_iff.1 h
  cases h
  exact ⟨hside hbefore, hside hafter⟩

/-- Every step of a registration that has succeeded. -/
theorem exists_of_register {vocabulary : Vocabulary} {key : String} {production : Production}
    {rule : Rule} (h : production.register vocabulary key = .ok rule) :
    ∃ parsed surroundings,
      Key.parse key = .ok parsed ∧ parsed.symbol ∈ vocabulary.active ∧
      (if (production.context.getD parsed.context).isEmpty then surroundings = none
        else ∃ resolved,
          (production.context.getD parsed.context).resolve vocabulary = .ok resolved ∧
          surroundings = some resolved) ∧
      production.successor.validate vocabulary parsed.symbol = .ok () ∧
      rule = ⟨parsed.symbol, production.successor, surroundings, production.condition,
        if parsed.params.isEmpty then production.params else parsed.params⟩ := by
  obtain ⟨parsed, hparsed, h⟩ := Outcome.bind_eq_ok_iff.1 h
  rw [Outcome.mapError_eq_ok_iff] at hparsed
  dsimp only at h
  split at h
  · cases h
  · next hactive =>
    have hmem := Decidable.not_not.1 hactive
    split at h
    · next hempty =>
      obtain ⟨surroundings, hnone, h⟩ := Outcome.bind_eq_ok_iff.1 h
      obtain ⟨_, hsuccessor, h⟩ := Outcome.bind_eq_ok_iff.1 h
      cases hnone
      cases h
      refine ⟨parsed, none, hparsed, hmem, ?_, hsuccessor, rfl⟩
      rw [if_pos hempty]
    · next hempty =>
      obtain ⟨surroundings, hsurroundings, h⟩ := Outcome.bind_eq_ok_iff.1 h
      obtain ⟨_, hsuccessor, h⟩ := Outcome.bind_eq_ok_iff.1 h
      cases h
      obtain ⟨resolved, hresolved, rfl⟩ := Outcome.map_eq_ok_iff.1 hsurroundings
      refine ⟨parsed, some resolved, hparsed, hmem, ?_, hsuccessor, rfl⟩
      rw [if_neg hempty]
      exact ⟨resolved, Outcome.mapError_eq_ok_iff.1 hresolved, rfl⟩

/-- **Registration is sound**: what it keeps is a valid rule. -/
theorem isValid_of_register {vocabulary : Vocabulary} {key : String} {production : Production}
    {rule : Rule} (h : production.register vocabulary key = .ok rule) :
    rule.IsValid vocabulary := by
  obtain ⟨parsed, surroundings, -, hactive, hsurroundings, hsuccessor, rfl⟩ :=
    exists_of_register h
  refine ⟨hactive, ?_, isValid_of_validate _ hsuccessor⟩
  split at hsurroundings
  · subst hsurroundings
    intro covered hcovered
    cases hcovered
  · obtain ⟨resolved, hresolved, rfl⟩ := hsurroundings
    rintro _ ⟨⟩
    exact isCovered_of_resolve hresolved

/-- The rule has the successor of the production. -/
theorem successor_of_register {vocabulary : Vocabulary} {key : String} {production : Production}
    {rule : Rule} (h : production.register vocabulary key = .ok rule) :
    rule.successor = production.successor := by
  obtain ⟨parsed, surroundings, -, -, -, -, rfl⟩ := exists_of_register h
  rfl

end GrowthGrammar
