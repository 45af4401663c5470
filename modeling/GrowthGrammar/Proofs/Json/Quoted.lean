import GrowthGrammar.Json.Quoted
import Mathlib.Tactic.SplitIfs

/-!
# Quoted strings are read back

Every character is spelled so that it is read as one piece of a string, and the piece spells the
character again (`exists_piece`). So a quoted text is read as that text, whatever characters it has
and whatever follows the closing quote (`scanString_quote`).
-/

set_option autoImplicit false

namespace GrowthGrammar.Json

/-! ## Numeric escapes -/

/-- The two last digits of the escape of a control character give its value. -/
theorem hexUnit?_hexDigit : ∀ n : Fin 32,
    hexUnit? '0' '0' (hexDigit (n / 16)) (hexDigit (n % 16)) = some n.val := by
  decide

theorem scanPieces_unit {a b c d : Char} {value : Nat} (h : hexUnit? a b c d = some value)
    (rest : List Char) :
    scanPieces ('\\' :: 'u' :: a :: b :: c :: d :: rest) =
      (scanPieces rest).map fun found => (.unit value :: found.1, found.2) := by
  rw [scanPieces, h]
  cases scanPieces rest <;> rfl

/-- The unit of a control character is no half of a pair. -/
theorem assemble_control {c : Char} (h : c.toNat < 0x20) (pieces : List Piece) :
    assemble (.unit c.toNat :: pieces) = (assemble pieces).map (c :: ·) := by
  conv => lhs; unfold assemble
  rw [if_pos (.inl (by omega)), Char.ofNat_toNat]

/-! ## Characters -/

theorem scanPieces_escape {letter escaped : Char} (h : simpleEscape? letter = some escaped)
    (rest : List Char) :
    scanPieces ('\\' :: letter :: rest) =
      (scanPieces rest).map fun found => (.char escaped :: found.1, found.2) := by
  rw [scanPieces, h]
  · cases scanPieces rest <;> rfl
  · -- no escape with one letter looks like a numeric one
    rintro a b c d rest rfl
    cases h

theorem scanPieces_plain {c : Char} (hquote : c ≠ '"') (hbackslash : c ≠ '\\')
    (hcontrol : ¬c.toNat < 0x20) (rest : List Char) :
    scanPieces (c :: rest) =
      (scanPieces rest).map fun found => (.char c :: found.1, found.2) := by
  rw [scanPieces]
  · rw [if_neg (not_or.2 ⟨hbackslash, hcontrol⟩)]
    cases scanPieces rest <;> rfl
  · exact fun h => hquote h
  · exact fun _ _ _ _ _ h => absurd h hbackslash
  · exact fun _ _ h => absurd h hbackslash

/-- The three kinds of spellings: an escape with one letter, a numeric escape and the character. -/
theorem escapeChar_cases (c : Char) :
    (∃ letter, escapeChar c = ['\\', letter] ∧ simpleEscape? letter = some c) ∨
    (c.toNat < 0x20 ∧ escapeChar c =
      ['\\', 'u', '0', '0', hexDigit (c.toNat / 16), hexDigit (c.toNat % 16)]) ∨
    (c ≠ '"' ∧ c ≠ '\\' ∧ ¬c.toNat < 0x20 ∧ escapeChar c = [c]) := by
  unfold escapeChar
  split_ifs with hquote hbackslash h h h h h hcontrol
  · exact .inl ⟨_, rfl, by rw [hquote]; rfl⟩
  · exact .inl ⟨_, rfl, by rw [hbackslash]; rfl⟩
  iterate 5
    · exact .inl ⟨_, rfl, by rw [h]; rfl⟩
  · exact .inr (.inl ⟨hcontrol, rfl⟩)
  · exact .inr (.inr ⟨hquote, hbackslash, hcontrol, rfl⟩)

/-- The spelling of a character is read as one piece, which spells that character. -/
theorem exists_piece (c : Char) :
    ∃ piece : Piece,
      (∀ rest, scanPieces (escapeChar c ++ rest) =
        (scanPieces rest).map fun found => (piece :: found.1, found.2)) ∧
      ∀ pieces, assemble (piece :: pieces) = (assemble pieces).map (c :: ·) := by
  obtain ⟨letter, hspelling, hletter⟩ | ⟨hcontrol, hspelling⟩ |
    ⟨hquote, hbackslash, hcontrol, hspelling⟩ := escapeChar_cases c
  · rw [hspelling]
    exact ⟨.char c, scanPieces_escape hletter, fun _ => rfl⟩
  · rw [hspelling]
    exact ⟨.unit c.toNat, scanPieces_unit (hexUnit?_hexDigit ⟨c.toNat, hcontrol⟩),
      assemble_control hcontrol⟩
  · rw [hspelling]
    exact ⟨.char c, scanPieces_plain hquote hbackslash hcontrol, fun _ => rfl⟩

/-! ## Texts -/

/-- The pieces of a spelled text, up to the closing quote. -/
theorem exists_pieces (text : List Char) :
    ∃ pieces : List Piece, assemble pieces = some text ∧
      ∀ rest, scanPieces (text.flatMap escapeChar ++ '"' :: rest) = some (pieces, rest) := by
  induction text with
  | nil => exact ⟨[], rfl, fun rest => by rw [List.flatMap_nil, List.nil_append, scanPieces]⟩
  | cons c text ih =>
      obtain ⟨pieces, htext, hscan⟩ := ih
      obtain ⟨piece, hpiece, hspells⟩ := exists_piece c
      refine ⟨piece :: pieces, ?_, fun rest => ?_⟩
      · rw [hspells, htext]
        rfl
      · rw [List.flatMap_cons, List.append_assoc, hpiece, hscan]
        rfl

/-- **Quoted texts.** A quoted text is read as the text. -/
theorem scanString_quote (text : String) (rest : List Char) :
    scanString (text.toList.flatMap escapeChar ++ '"' :: rest) = some (some text, rest) := by
  obtain ⟨pieces, htext, hscan⟩ := exists_pieces text.toList
  rw [scanString, hscan]
  simp only [Option.map_some, htext, String.ofList_toList]

end GrowthGrammar.Json
