import GrowthGrammar.Format
import GrowthGrammar.Proofs.Document

/-!
# Words in JSON

The JSON text of a word is read as the same letters in the same order, with each parameter replaced
by the number that its numeral is read as (`ofJson?_written`). So the word comes back exactly if
every parameter does. Numbers with few digits do; a number with many digits may come back as its
neighbour (`exists_parameter_changed`).
-/

set_option autoImplicit false

namespace GrowthGrammar

open Json (node)

/-- The letter that is read where a letter is written. -/
def Letter.reread? (letter : Letter) : Option Letter :=
  (letter.params.mapM Json.reread?).map fun params => ⟨letter.symbol, params⟩

theorem Letter.decode_toJson (letter : Letter) :
    Letter.decode (node letter.toJson) = .ofOption letter.reread? := by
  rw [Letter.toJson, ite_eq_optionalMember]
  generalize hmembers : ("symbol", Json.string letter.symbol) ::
    optionalMember "params" (fun json => json) _ = members
  have hnames : (members.map Prod.fst).Sublist ["symbol", "params"] := by
    rw [← hmembers, List.map_cons]
    exact (names_optionalMember _ _ _).cons_cons "symbol"
  have hsymbol : members.lookup "symbol" = some (.string letter.symbol) := by
    rw [← hmembers]
    rfl
  have hparams : members.lookup "params" = if letter.params.isEmpty then none
      else some (.array (letter.params.map .number)) := by
    simp [← hmembers, List.lookup_cons, lookup_optionalMember]
  -- no parameters are read where none are written
  have hempty : letter.params.isEmpty = true →
      (pure [] : Decoder (List Float)) = .ofOption (letter.params.mapM Json.reread?) := by
    intro h
    rw [List.isEmpty_iff.1 h]
    rfl
  have hnumbers : (node (.array (letter.params.map .number))).asListOf Node.asNumber =
      .ofOption (letter.params.mapM Json.reread?) :=
    asListOf_array fun x _ => by rw [asNumber_number, Json.reread?_eq]
  rw [Letter.decode, asRecord_object (by decide) hnames, pure_bind, requiredField_eq hsymbol,
    asText_string, pure_bind, fieldOr_eq hparams hempty fun _ => hnumbers, Decoder.ofOption_map,
    Letter.reread?]

/-! ## Words that come back -/

theorem mapM_eq_some_self_iff {α : Type} {read : α → Option α} {items : List α} :
    items.mapM read = some items ↔ ∀ item ∈ items, read item = some item := by
  induction items with
  | nil => simp
  | cons item items ih =>
      rw [List.forall_mem_cons, ← ih, List.mapM_cons]
      cases read item with
      | none => simp
      | some found => cases items.mapM read <;> simp

theorem Letter.reread?_eq_some_iff {letter : Letter} :
    letter.reread? = some letter ↔ ∀ x ∈ letter.params, Json.reread? x = some x := by
  obtain ⟨symbol, params⟩ := letter
  rw [← mapM_eq_some_self_iff, Letter.reread?]
  cases params.mapM Json.reread? <;> simp

namespace Word

theorem ofJson?_jsonText (word : Word) :
    Word.ofJson? word.jsonText = word.mapM Letter.reread? := by
  have hdecode : Word.decode (node (.array (word.map Letter.toJson))) =
      .ofOption (word.mapM Letter.reread?) :=
    asListOf_array fun letter _ => letter.decode_toJson
  rw [Word.ofJson?, Word.jsonText, Json.read?_pretty, Option.bind_some]
  exact Document.decode?_eq hdecode

/-- **What comes back.** Of every word the JSON text is read as the letters that its letters are
read as, one by one, and that is the word itself exactly if every parameter comes back. Finite
parameters with a short numeral do. -/
theorem ofJson?_written (word : Word) :
    ∃ text, Format.json.write word = .ok text ∧
      Word.ofJson? text = word.mapM Letter.reread? ∧
      (Word.ofJson? text = some word ↔
        ∀ letter ∈ word, ∀ x ∈ letter.params, Json.reread? x = some x) ∧
      ((∀ letter ∈ word, ∀ x ∈ letter.params,
          x.isFinite = true ∧ Json.isShortNumber x = true) →
        Word.ofJson? text = some word) := by
  have hiff : Word.ofJson? word.jsonText = some word ↔
      ∀ letter ∈ word, ∀ x ∈ letter.params, Json.reread? x = some x := by
    rw [ofJson?_jsonText, mapM_eq_some_self_iff]
    exact forall₂_congr fun letter _ => Letter.reread?_eq_some_iff
  refine ⟨word.jsonText, rfl, ofJson?_jsonText word, hiff, fun hshort => hiff.2 ?_⟩
  intro letter hletter x hx
  obtain ⟨hfinite, hx⟩ := hshort letter hletter x hx
  rw [Json.reread?_eq, Json.numeralValue?_of_isShort hfinite hx]

/-- A parameter with sixteen digits that comes back as its neighbour. -/
theorem exists_parameter_changed :
    ∃ text, Format.json.write [⟨"F", [9007199254740991]⟩] = .ok text ∧
      Word.ofJson? text = some [⟨"F", [9007199254740990]⟩] ∧
      Word.ofJson? text ≠ some [⟨"F", [9007199254740991]⟩] := by
  refine ⟨_, rfl, ?_, ?_⟩
  · decide +kernel
  · decide +kernel

end Word

end GrowthGrammar
