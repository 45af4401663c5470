import GrowthGrammar.Proofs.Expression.Constant
import GrowthGrammar.Proofs.Phrase.Parameters

/-!
# Printed words are read again

A word whose symbols can stand in a phrase and whose parameters are finite is readable: printed in
phrase syntax, it is tokenised to the same word, under every lookup of names
(`tokenize_text`). Every word that comes from a phrase is readable (`isReadable_of_tokenize`).
-/

set_option autoImplicit false

namespace GrowthGrammar

open Decimal (plainText)

/-! ## Plain forms in a phrase -/

theorem not_isBlank_of_isDigit {c : Char} (h : c.isDigit = true) : Text.isBlank c = false := by
  obtain ⟨hlow, hhigh⟩ : 48 ≤ c.toNat ∧ c.toNat ≤ 57 := by
    simpa [Char.isDigit, UInt32.le_iff_toNat_le] using h
  simp only [Text.isBlank, Text.blankRanges, List.any_cons, List.any_nil, Bool.or_false,
    Bool.or_eq_false_iff, Bool.and_eq_false_iff, decide_eq_false_iff_not]
  omega

/-- No character of a plain form means anything to the scanner. -/
theorem isInert_of_mem_plainText {x : Float} (hx : x.isFinite = true) {c : Char}
    (hc : c ∈ (plainText x).toList) :
    c ≠ ',' ∧ isMarker c = false ∧ Text.isBlank c = false := by
  rcases mem_plainText hx hc with hdigit | rfl | rfl
  · refine ⟨Decimal.ne_of_isDigit hdigit (by decide), ?_, not_isBlank_of_isDigit hdigit⟩
    have hopen := Decimal.ne_of_isDigit hdigit (show Char.isDigit '(' = false by decide)
    have hclose := Decimal.ne_of_isDigit hdigit (show Char.isDigit ')' = false by decide)
    simp [isMarker, hopen, hclose]
  · decide
  · decide

/-! ## Readable letters -/

/-- The item that a letter is printed as. -/
def Letter.item (letter : Letter) : Phrase.Item :=
  ⟨letter.symbol,
    if letter.params.isEmpty then none
    else some (",".intercalate (letter.params.map plainText))⟩

theorem text_item (letter : Letter) : letter.item.text = letter.text.toList := by
  unfold Letter.item Letter.text Phrase.Item.text
  split
  · simp [Phrase.groupText]
  · simp [Phrase.groupText]

theorem itemsText_map_item (word : Word) :
    Phrase.itemsText (word.map Letter.item) = word.text.toList := by
  rw [Word.text, String.toList_join, Phrase.itemsText, List.flatMap_map, List.flatMap_map]
  exact List.flatMap_congr fun letter _ => text_item letter

/-- The letters that a phrase can denote. -/
structure Letter.IsReadable (vocabulary : Vocabulary) (letter : Letter) : Prop where
  scannable : Phrase.IsScannable vocabulary letter.symbol
  finite : ∀ param ∈ letter.params, param.isFinite = true

section Readable

variable {vocabulary : Vocabulary} {lookup : String → Option Float} {letter : Letter}

/-- What a list of parameters is printed with. -/
theorem mem_intercalate_plainText {params : List Float}
    (hfinite : ∀ param ∈ params, param.isFinite = true) {c : Char}
    (hc : c ∈ (",".intercalate (params.map plainText)).toList) :
    isMarker c = false ∧ Text.isBlank c = false := by
  rw [String.toList_intercalate] at hc
  obtain rfl | ⟨text, htext, hc⟩ := Phrase.mem_or_mem_of_mem_intercalate hc
  · decide
  · obtain ⟨item, hitem, rfl⟩ := List.mem_map.1 htext
    obtain ⟨x, hx, rfl⟩ := List.mem_map.1 hitem
    exact (isInert_of_mem_plainText (hfinite x hx) hc).2

theorem not_isBlank_of_mem_text (h : letter.IsReadable vocabulary) {c : Char}
    (hc : c ∈ letter.text.toList) : Text.isBlank c = false := by
  rw [← text_item] at hc
  rcases List.mem_append.1 hc with hc | hc
  · exact Phrase.not_isBlank_of_knows h.scannable.known hc
  · unfold Letter.item at hc
    split at hc
    · cases hc
    · rcases List.mem_cons.1 hc with rfl | hc
      · decide
      · rcases List.mem_append.1 hc with hc | hc
        · exact (mem_intercalate_plainText h.finite hc).2
        · obtain rfl := List.mem_singleton.1 hc
          decide

/-- The item of a readable letter is well-formed. -/
theorem isWellFormed_item (h : letter.IsReadable vocabulary) :
    letter.item.IsWellFormed vocabulary := by
  refine ⟨h.scannable, ?_⟩
  intro raw hraw
  unfold Letter.item at hraw
  split at hraw
  · cases hraw
  · obtain rfl := Option.some.inj hraw
    exact Phrase.isBalanced_of_markerFree fun c hc => (mem_intercalate_plainText h.finite hc).1

/-- Evaluating the parameters of a printed letter gives them back. -/
theorem evaluateParams_plainText {params : List Float} (hne : params ≠ [])
    (hfinite : ∀ param ∈ params, param.isFinite = true) (symbol : String) :
    Phrase.evaluateParams lookup symbol (",".intercalate (params.map plainText)).toList =
      .ok params := by
  have hone : params.map plainText ≠ [""] := by
    intro h
    obtain ⟨x, hx, htext⟩ := List.mem_map.1 (h ▸ List.mem_singleton_self "")
    apply toList_plainText_ne_nil (hfinite x hx)
    rw [htext]
    rfl
  rw [Phrase.evaluateParams_intercalate (by simpa using hne) hone]
  · rw [Outcome.mapM_mapError_eq_ok_iff, List.map_map]
    exact List.map_congr_left fun x hx => evaluate_plainText lookup (hfinite x hx)
  · intro item hitem
    obtain ⟨x, hx, rfl⟩ := List.mem_map.1 hitem
    apply Phrase.isParameter_of_inert
    intro c hc
    obtain ⟨hcomma, hmarker, -⟩ := isInert_of_mem_plainText (hfinite x hx) hc
    exact ⟨hcomma, hmarker⟩

theorem letter_item (h : letter.IsReadable vocabulary) :
    letter.item.letter lookup = .ok letter := by
  unfold Phrase.Item.letter Letter.item
  cases hparams : letter.params with
  | nil =>
      show Except.ok (⟨letter.symbol, []⟩ : Letter) = _
      rw [← hparams]
  | cons x rest =>
      have hne : letter.params ≠ [] := by
        rw [hparams]
        exact List.cons_ne_nil _ _
      have hvalues : Phrase.evaluateParams lookup letter.symbol
          (",".intercalate (letter.params.map plainText)).toList = .ok letter.params :=
        evaluateParams_plainText hne h.finite letter.symbol
      rw [hparams] at hvalues
      simp only [List.isEmpty_cons, Bool.false_eq_true, if_false, hvalues]
      show Except.ok (⟨letter.symbol, x :: rest⟩ : Letter) = _
      rw [← hparams]

/-- What parameters evaluate to is finite. -/
theorem isFinite_of_evaluateParams {symbol : String} {raw : List Char} {params : List Float}
    (h : Phrase.evaluateParams lookup symbol raw = .ok params) :
    ∀ param ∈ params, param.isFinite = true := by
  intro param hparam
  unfold Phrase.evaluateParams at h
  split at h
  · cases h
    cases hparam
  · obtain ⟨text, -, hvalue⟩ := Outcome.exists_of_mem_mapM h hparam
    exact isFinite_of_evaluate (Outcome.mapError_eq_ok_iff.1 hvalue)

theorem isReadable_of_letter {item : Phrase.Item} (hitem : item.IsWellFormed vocabulary)
    (h : item.letter lookup = .ok letter) : letter.IsReadable vocabulary := by
  refine ⟨?_, ?_⟩
  · rw [Phrase.symbol_of_letter h]
    exact hitem.scannable
  · unfold Phrase.Item.letter at h
    split at h
    · obtain ⟨params, hparams, h⟩ := Outcome.bind_eq_ok_iff.1 h
      cases h
      exact isFinite_of_evaluateParams hparams
    · cases h
      intro param hparam
      cases hparam

/-- Whatever a phrase denotes is readable. -/
theorem isReadable_of_tokenize {phrase : String} {word : Word}
    (h : Phrase.tokenize vocabulary lookup phrase = .ok word) :
    ∀ letter ∈ word, letter.IsReadable vocabulary := by
  intro letter hletter
  obtain ⟨items, hitems, hword⟩ := Outcome.bind_eq_ok_iff.1 h
  obtain ⟨item, hitem, hof⟩ := Outcome.exists_of_mem_mapM hword hletter
  exact isReadable_of_letter ((Phrase.scan_eq_ok_iff.1 hitems).wellFormed item hitem) hof

/-- **Printed words are read again.** A readable word, printed with its parameters, is tokenised to
itself, whatever the names stand for. -/
theorem tokenize_text {word : Word} (h : ∀ letter ∈ word, letter.IsReadable vocabulary) :
    Phrase.tokenize vocabulary lookup word.text = .ok word := by
  -- printing leaves no blanks for the scanner to drop
  have hchars : Phrase.chars word.text = word.text.toList := by
    refine Text.compact_eq_self.2 fun c hc => ?_
    rw [Word.text, String.toList_join] at hc
    obtain ⟨text, htext, hc⟩ := List.mem_flatMap.1 hc
    obtain ⟨letter, hletter, rfl⟩ := List.mem_map.1 htext
    exact not_isBlank_of_mem_text (h letter hletter) hc
  have hscan : Phrase.scan vocabulary word.text = .ok (word.map Letter.item) := by
    refine Phrase.scan_eq_ok_iff.2 ⟨?_, ?_⟩
    · rw [hchars, itemsText_map_item]
    · intro item hitem
      obtain ⟨letter, hletter, rfl⟩ := List.mem_map.1 hitem
      exact isWellFormed_item (h letter hletter)
  refine Outcome.bind_eq_ok_iff.2 ⟨word.map Letter.item, hscan, ?_⟩
  rw [Outcome.mapM_eq_ok_iff, List.map_map]
  exact List.map_congr_left fun letter hletter => letter_item (h letter hletter)

end Readable

end GrowthGrammar
