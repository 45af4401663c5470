import GrowthGrammar.Proofs.Phrase.Printing
import GrowthGrammar.Proofs.System.Soundness

/-!
# Symbols that phrases can produce

The scanner takes the shortest known symbol that it can, so a symbol is lost to phrases as soon as
another known symbol begins it, whichever of the two alphabets that one stands in. This is the only
way to lose an active symbol: without such a symbol it denotes itself, and with one no phrase at all
has it in its word (`tokenize_symbol_iff_isUnshadowed`). Building a system does not look for such
pairs of symbols.
-/

set_option autoImplicit false

namespace GrowthGrammar

variable {vocabulary : Vocabulary} {lookup : String → Option Float} {symbol : String}

/-- No known symbol but the symbol itself begins it. -/
def Vocabulary.IsUnshadowed (vocabulary : Vocabulary) (symbol : String) : Prop :=
  ∀ other, vocabulary.knows other = true → other.toList <+: symbol.toList → other = symbol

theorem ne_empty_of_knows (h : vocabulary.knows symbol = true) : symbol.toList ≠ [] := by
  have hne : symbol ≠ "" := by
    rcases Vocabulary.knows_iff.1 h with hmem | hmem
    · exact vocabulary.active.nonempty_of_mem _ hmem
    · exact vocabulary.ignored.nonempty_of_mem _ hmem
  exact fun hnil => hne (String.toList_injective hnil)

/-- A symbol that can stand in a phrase is begun by no other. -/
theorem Phrase.IsScannable.isUnshadowed (h : Phrase.IsScannable vocabulary symbol) :
    vocabulary.IsUnshadowed symbol := by
  intro other hknown hstart
  by_contra hne
  have hproper : other.toList ≠ symbol.toList := fun heq => hne (String.toList_injective heq)
  have hunknown := h.shortest other.toList (ne_empty_of_knows hknown) hstart hproper
  rw [String.ofList_toList, hknown] at hunknown
  cases hunknown

/-- For active symbols there is nothing else to it. -/
theorem isScannable_of_isUnshadowed (hactive : symbol ∈ vocabulary.active)
    (h : vocabulary.IsUnshadowed symbol) : Phrase.IsScannable vocabulary symbol where
  known := Vocabulary.knows_iff.2 (.inl hactive)
  not_marker := Phrase.not_isBareMarker_of_mem_active hactive
  shortest := by
    intro start _ hstart hproper
    rw [Bool.eq_false_iff]
    intro hknown
    have hsymbol : String.ofList start = symbol :=
      h (String.ofList start) hknown (by rwa [String.toList_ofList])
    apply hproper
    rw [← hsymbol, String.toList_ofList]

/-- The word of a phrase has unshadowed symbols only. -/
theorem isUnshadowed_of_tokenize {phrase : String} {word : Word}
    (h : Phrase.tokenize vocabulary lookup phrase = .ok word) :
    ∀ letter ∈ word, vocabulary.IsUnshadowed letter.symbol :=
  fun letter hletter => (isReadable_of_tokenize h letter hletter).scannable.isUnshadowed

/-- A symbol that can stand in a phrase is a phrase for itself. -/
theorem tokenize_symbol (h : Phrase.IsScannable vocabulary symbol) :
    Phrase.tokenize vocabulary lookup symbol = .ok [⟨symbol, []⟩] := by
  have hreadable : ∀ letter ∈ [(⟨symbol, []⟩ : Letter)], letter.IsReadable vocabulary := by
    intro letter hletter
    obtain rfl := List.mem_singleton.1 hletter
    exact ⟨h, by simp⟩
  have htext : Word.text [⟨symbol, []⟩] = symbol := by
    simp [Word.text, Letter.text]
  have htokenize : Phrase.tokenize vocabulary lookup (Word.text [⟨symbol, []⟩]) =
      .ok [⟨symbol, []⟩] := tokenize_text hreadable
  rwa [htext] at htokenize

namespace System

variable {κ : Type}

/-- **An active symbol can be produced exactly when no other known symbol begins it.** In a system
that has been built, with any lookup of names, an unshadowed active symbol is tokenised to itself
alone; a shadowed one is not, and there is no phrase whose word has it anywhere. -/
theorem tokenize_symbol_iff_isUnshadowed {options : Options κ} {built : System κ}
    (h : options.build = .ok built) {symbol : String} (hsymbol : symbol ∈ options.alphabet)
    (lookup : String → Option Float) :
    (Phrase.tokenize built.vocabulary lookup symbol = .ok [⟨symbol, []⟩] ↔
      built.vocabulary.IsUnshadowed symbol) ∧
    (¬built.vocabulary.IsUnshadowed symbol →
      ∀ (phrase : String) (word : Word),
        Phrase.tokenize built.vocabulary lookup phrase = .ok word →
          symbol ∉ word.map Letter.symbol) := by
  have hactive : symbol ∈ built.vocabulary.active := by
    show symbol ∈ built.vocabulary.active.symbols
    rwa [(isSound_of_build h).active_eq]
  refine ⟨⟨?_, ?_⟩, ?_⟩
  · intro htokenize
    exact isUnshadowed_of_tokenize htokenize ⟨symbol, []⟩ List.mem_cons_self
  · intro hunshadowed
    exact tokenize_symbol (isScannable_of_isUnshadowed hactive hunshadowed)
  · intro hshadowed phrase word htokenize hmem
    obtain ⟨letter, hletter, rfl⟩ := List.mem_map.1 hmem
    exact hshadowed (isUnshadowed_of_tokenize htokenize letter hletter)

/-- Two active symbols, the first of which begins the second. -/
def overlapping : Options Unit where
  alphabet := ["A", "AB"]

theorem exists_overlapping : ∃ built : System Unit, overlapping.build = .ok built :=
  Outcome.exists_of_isSome (by decide +kernel)

theorem not_isUnshadowed_overlapping {built : System Unit} (h : overlapping.build = .ok built) :
    ¬built.vocabulary.IsUnshadowed "AB" := by
  intro hunshadowed
  have hactive : "A" ∈ built.vocabulary.active.symbols := by
    rw [(isSound_of_build h).active_eq]
    decide
  have hknown : built.vocabulary.knows "A" = true := Vocabulary.knows_iff.2 (.inl hactive)
  exact absurd (hunshadowed "A" hknown (by decide)) (by decide)

/-- The first of the overlapping symbols is produced, the second is in the word of no phrase. -/
theorem tokenize_symbol_iff_isUnshadowed_overlapping :
    ∃ built : System Unit, overlapping.build = .ok built ∧
      ∀ lookup : String → Option Float,
        Phrase.tokenize built.vocabulary lookup "A" = .ok [⟨"A", []⟩] ∧
        ∀ (phrase : String) (word : Word),
          Phrase.tokenize built.vocabulary lookup phrase = .ok word →
            "AB" ∉ word.map Letter.symbol := by
  obtain ⟨built, h⟩ := exists_overlapping
  refine ⟨built, h, fun lookup => ⟨?_, ?_⟩⟩
  · refine (tokenize_symbol_iff_isUnshadowed h (by decide) lookup).1.2 fun other hother hstart => ?_
    -- the characters of a symbol that begins `A` are those of `A`, for there is some
    have hlength : other.toList.length ≤ 1 := hstart.length_le
    have hpositive := List.length_pos_iff.2 (ne_empty_of_knows hother)
    exact String.toList_injective (hstart.eq_of_length (by show _ = 1; omega))
  · exact (tokenize_symbol_iff_isUnshadowed h (by decide) lookup).2 (not_isUnshadowed_overlapping h)

/-- An active symbol of a system that has been built, and no phrase for it. -/
theorem exists_active_not_tokenized :
    ∃ built : System Unit, overlapping.build = .ok built ∧ "AB" ∈ built.vocabulary.active ∧
      ∀ defines : Defines,
        Phrase.tokenize built.vocabulary (Scope.ofDefines defines).lookup "AB" ≠
          .ok [⟨"AB", []⟩] := by
  obtain ⟨built, h⟩ := exists_overlapping
  have hactive : "AB" ∈ built.vocabulary.active.symbols := by
    rw [(isSound_of_build h).active_eq]
    decide
  refine ⟨built, h, hactive, fun defines htokenize => ?_⟩
  exact not_isUnshadowed_overlapping h
    (isUnshadowed_of_tokenize htokenize ⟨"AB", []⟩ List.mem_cons_self)

end System

end GrowthGrammar
