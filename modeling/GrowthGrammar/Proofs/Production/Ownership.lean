import GrowthGrammar.Proofs.Production.Notation
import GrowthGrammar.Proofs.Production.Validity

/-!
# Symbols that can own a production

A production is registered for the symbol of its key. A symbol that is free of context marks is a key
by itself, and under it every production of valid parts is registered. A symbol with a context mark
in it is the symbol of no key: what stands beside the mark is taken for a context. So an active symbol
can own a production exactly if it is free of marks (`register_iff_isMarkFree`). An alphabet does not
ask for that: it lists `A<B`, which no production can rewrite (`exists_active_without_production`).
-/

set_option autoImplicit false

namespace GrowthGrammar

variable {vocabulary : Vocabulary} {key symbol : String} {production : Production} {rule : Rule}

/-- What a production may ask for around an occurrence can be read. -/
def Production.HasReadableContext (vocabulary : Vocabulary) (production : Production) : Prop :=
  ∀ context ∈ production.context, ∃ surroundings, context.resolve vocabulary = .ok surroundings

/-- No key gives a symbol with a context mark. -/
theorem isMarkFree_of_register (h : production.register vocabulary key = .ok rule) :
    Key.IsMarkFree rule.symbol.toList := by
  obtain ⟨parsed, surroundings, hparsed, -, -, -, rfl⟩ := exists_of_register h
  obtain ⟨hne, hsymbol, -⟩ := Key.isWrittenAs_of_parse hparsed
  refine ⟨fun hnil => hne (String.toList_injective hnil), ?_⟩
  intro c hc
  obtain ⟨hbefore, hafter, -⟩ := hsymbol c hc
  exact ⟨hbefore, hafter⟩

/-- An active symbol without context marks is a key. -/
theorem Key.parse_symbol (hactive : symbol ∈ vocabulary.active)
    (hfree : IsMarkFree symbol.toList) : parse symbol = .ok ⟨symbol, none, none, []⟩ := by
  have hknown : vocabulary.knows symbol = true := Vocabulary.knows_iff.2 (.inl hactive)
  have hmarkers : ∀ c ∈ symbol.toList, isMarker c = false :=
    (Phrase.markerFree_of_knows hknown (Phrase.not_isBareMarker_of_mem_active hactive)).2
  have hplain : IsPlain ⟨symbol, none, none, []⟩ := by
    refine ⟨vocabulary.active.nonempty_of_mem _ hactive, ?_, by simp, by simp⟩
    intro c hc
    obtain ⟨hbefore, hafter⟩ := hfree.2 c hc
    have hmarker := hmarkers c hc
    simp only [isMarker, Bool.or_eq_false_iff, beq_eq_false_iff_ne] at hmarker
    exact ⟨hbefore, hafter, hmarker.1, hmarker.2⟩
  have hcompact : Text.compact symbol.toList = symbol.toList :=
    Text.compact_eq_self.2 fun _ hc => Phrase.not_isBlank_of_knows hknown hc
  apply hplain.parse_eq_ok (by simp)
  rw [hcompact]
  exact .inl (by simp [text])

/-- A production is registered once its key gives an active symbol, what it asks for around an
occurrence can be read, and its successor passes its check. -/
theorem exists_rule_of_parse {parsed : Key} (hparsed : Key.parse key = .ok parsed)
    (hactive : parsed.symbol ∈ vocabulary.active)
    (hcontext : (production.context.getD parsed.context).isEmpty = false →
      ∃ surroundings, (production.context.getD parsed.context).resolve vocabulary =
        .ok surroundings)
    (hsuccessor : production.successor.validate vocabulary parsed.symbol = .ok ()) :
    ∃ rule, production.register vocabulary key = .ok rule ∧ rule.symbol = parsed.symbol := by
  unfold Production.register
  rw [hparsed]
  dsimp only [Except.mapError, bind, Except.bind]
  rw [if_neg (not_not.2 hactive), hsuccessor]
  by_cases hempty : (production.context.getD parsed.context).isEmpty = true
  · rw [if_pos hempty]
    exact ⟨_, rfl, rfl⟩
  · obtain ⟨surroundings, hsurroundings⟩ := hcontext (Bool.eq_false_iff.2 hempty)
    rw [if_neg hempty, hsurroundings]
    exact ⟨_, rfl, rfl⟩

/-- Under its symbol as key, a production of valid parts is registered. -/
theorem exists_rule_of_isMarkFree (hactive : symbol ∈ vocabulary.active)
    (hfree : Key.IsMarkFree symbol.toList)
    (hcontext : production.HasReadableContext vocabulary)
    (hsuccessor : production.successor.IsValid vocabulary) :
    ∃ rule, production.register vocabulary symbol = .ok rule ∧ rule.symbol = symbol := by
  refine exists_rule_of_parse (Key.parse_symbol hactive hfree) hactive ?_
    (validate_of_isValid symbol hsuccessor)
  intro hasked
  cases hgiven : production.context with
  | none =>
      -- a key that is a symbol alone asks for nothing either
      rw [hgiven] at hasked
      cases hasked
  | some context => exact hcontext context hgiven

/-- **An active symbol can own a production exactly if it is free of context marks.** There is a key
and a production that are registered for the symbol if and only if no `<` and no `>` is in it. If so,
the symbol itself is a key, and every production whose context can be read and whose successor is
valid is registered under it, as a valid rule of that symbol. -/
theorem register_iff_isMarkFree (hactive : symbol ∈ vocabulary.active) :
    ((∃ key production rule, Production.register vocabulary key production = .ok rule ∧
        rule.symbol = symbol) ↔ Key.IsMarkFree symbol.toList) ∧
      (Key.IsMarkFree symbol.toList → ∀ production : Production,
        production.HasReadableContext vocabulary → production.successor.IsValid vocabulary →
          ∃ rule, production.register vocabulary symbol = .ok rule ∧ rule.symbol = symbol ∧
            rule.IsValid vocabulary) := by
  refine ⟨⟨?_, ?_⟩, ?_⟩
  · rintro ⟨key, production, rule, hrule, rfl⟩
    exact isMarkFree_of_register hrule
  · intro hfree
    obtain ⟨rule, hrule, hsymbol⟩ := exists_rule_of_isMarkFree hactive hfree
      (show (⟨.word [], none, none, []⟩ : Production).HasReadableContext vocabulary from nofun)
      (.word nofun)
    exact ⟨symbol, _, rule, hrule, hsymbol⟩
  · intro hfree production hcontext hsuccessor
    obtain ⟨rule, hrule, hsymbol⟩ := exists_rule_of_isMarkFree hactive hfree hcontext hsuccessor
    exact ⟨rule, hrule, hsymbol, isValid_of_register hrule⟩

/-- `F` owns a production that asks for an `A` before it. -/
theorem register_iff_isMarkFree_letter :
    "F" ∈ latinCapitals ∧ Key.IsMarkFree "F".toList ∧
      ∃ rule, Production.register ⟨latinCapitals, drawingMarks⟩ "F"
        { successor := .phrase "F+F", context := some ⟨some (.phrase "A"), none⟩ } = .ok rule ∧
        rule.symbol = "F" ∧ rule.IsValid ⟨latinCapitals, drawingMarks⟩ := by
  have hactive : "F" ∈ latinCapitals := by decide
  have hfree : Key.IsMarkFree "F".toList := by
    refine ⟨by decide, fun c hc => ?_⟩
    obtain rfl : c = 'F' := by simpa using hc
    decide
  have hcontext : Production.HasReadableContext ⟨latinCapitals, drawingMarks⟩
      { successor := .phrase "F+F", context := some ⟨some (.phrase "A"), none⟩ } := by
    rintro context ⟨⟩
    exact Outcome.exists_of_isSome (by decide +kernel)
  have hsuccessor : Successor.IsValid ⟨latinCapitals, drawingMarks⟩ (.phrase "F+F") :=
    .phrase (Outcome.exists_of_isSome (by decide +kernel))
  have howns := register_iff_isMarkFree
    (show "F" ∈ (⟨latinCapitals, drawingMarks⟩ : Vocabulary).active from hactive)
  exact ⟨hactive, hfree, howns.2 hfree _ hcontext hsuccessor⟩

/-- An alphabet that is accepted, and a symbol of it that owns no production under any key. -/
theorem exists_active_without_production :
    ∃ active : Alphabet .active, Alphabet.activeOfList ["A<B"] = .ok active ∧
      Vocabulary.ensureDisjoint ⟨active, drawingMarks⟩ = .ok () ∧ "A<B" ∈ active ∧
      ∀ (key : String) (production : Production) (rule : Rule),
        production.register ⟨active, drawingMarks⟩ key = .ok rule → rule.symbol ≠ "A<B" := by
  refine ⟨⟨["A<B"], by decide, by decide, by decide⟩, rfl, by decide, by decide, ?_⟩
  intro key production rule hrule hsymbol
  obtain ⟨-, hclear⟩ := isMarkFree_of_register hrule
  rw [hsymbol] at hclear
  exact (hclear '<' (by decide)).1 rfl

end GrowthGrammar
