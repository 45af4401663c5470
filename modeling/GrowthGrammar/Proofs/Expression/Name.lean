import GrowthGrammar.Proofs.Expression.Grammar
import GrowthGrammar.Proofs.Expression.Token
import GrowthGrammar.Proofs.Outcome
import Mathlib.Data.List.Basic
import Mathlib.Data.List.TakeWhile

/-!
# Names as expressions

A text is read as the name that it is exactly when it is an identifier (`parse_eq_name_iff`). An
identifier is a single token. In the other direction, the names in a tree are those of its tokens,
in their order (`names_of_derives`), and a name token is made of identifier characters alone.
-/

set_option autoImplicit false

namespace GrowthGrammar

open Decimal (Literal)

/-! ## The characters of an identifier -/

theorem isNameChar_of_isNameStart {c : Char} (h : isNameStart c = true) : isNameChar c = true := by
  unfold isNameStart at h
  unfold isNameChar Char.isAlphanum
  rcases Bool.or_eq_true_iff.1 h with h | h <;> simp [h]

theorem isIdentifier_iff {name : String} :
    isIdentifier name = true ↔ ∃ c rest, name.toList = c :: rest ∧ isNameStart c = true ∧
      ∀ d ∈ rest, isNameChar d = true := by
  unfold isIdentifier
  cases name.toList with
  | nil => simp
  | cons first rest =>
      rw [Bool.and_eq_true, List.all_eq_true]
      constructor
      · rintro ⟨hfirst, hrest⟩
        exact ⟨first, rest, rfl, hfirst, hrest⟩
      · rintro ⟨c, behind, heq, hc, hbehind⟩
        obtain ⟨rfl, rfl⟩ := List.cons.inj heq
        exact ⟨hc, hbehind⟩

theorem isNameChar_of_mem {name : String} (h : isIdentifier name = true) {c : Char}
    (hc : c ∈ name.toList) : isNameChar c = true := by
  obtain ⟨first, rest, htext, hfirst, hrest⟩ := isIdentifier_iff.1 h
  rw [htext] at hc
  rcases List.mem_cons.1 hc with rfl | hc
  · exact isNameChar_of_isNameStart hfirst
  · exact hrest c hc

theorem ne_of_isNameChar {c d : Char} (hc : isNameChar c = true) (hd : isNameChar d = false) :
    c ≠ d := by
  rintro rfl
  rw [hc] at hd
  cases hd

theorem isAlpha_iff {c : Char} :
    c.isAlpha = true ↔
      (65 ≤ c.toNat ∧ c.toNat ≤ 90) ∨ (97 ≤ c.toNat ∧ c.toNat ≤ 122) := by
  show (decide (65 ≤ c.val ∧ c.val ≤ 90) || (decide (97 ≤ c.val) && decide (c.val ≤ 122))) =
    true ↔ _
  simp only [Bool.or_eq_true, Bool.and_eq_true, decide_eq_true_eq, UInt32.le_iff_toNat_le]
  exact Iff.rfl

theorem isDigit_iff {c : Char} : c.isDigit = true ↔ 48 ≤ c.toNat ∧ c.toNat ≤ 57 := by
  show (decide (48 ≤ c.val) && decide (c.val ≤ 57)) = true ↔ _
  simp only [Bool.and_eq_true, decide_eq_true_eq, UInt32.le_iff_toNat_le]
  exact Iff.rfl

/-! ## Names as tokens -/

theorem isDigit_of_isNameStart {c : Char} (h : isNameStart c = true) : c.isDigit = false := by
  unfold isNameStart at h
  rw [Bool.or_eq_true, isAlpha_iff, beq_iff_eq] at h
  rw [Bool.eq_false_iff, ne_eq, isDigit_iff]
  rcases h with h | rfl
  · omega
  · decide

/-- No literal begins like a name. -/
theorem scan_eq_none_of_isNameStart {c : Char} (h : isNameStart c = true) (rest : List Char) :
    Literal.scan (c :: rest) = none := by
  have hpoint : c ≠ '.' := by
    rintro rfl
    cases h
  have hspan : Decimal.spanDigits (c :: rest) = ([], c :: rest) := by
    simp [Decimal.spanDigits, isDigit_of_isNameStart h]
  simp [Literal.scan, hspan, hpoint]

/-- A name is taken as far as its characters reach. -/
theorem Token.first?_of_isNameStart {c : Char} (h : isNameStart c = true) (rest : List Char) :
    Token.first? (c :: rest) =
      some (.name (String.ofList (c :: rest.takeWhile isNameChar)), rest.dropWhile isNameChar) := by
  rw [Token.first?, scan_eq_none_of_isNameStart h]
  simp [h]

/-- An identifier is one token. -/
theorem lexFrom_identifier {name : String} (h : isIdentifier name = true) (offset : Nat) :
    lexFrom offset name.toList =
      ⟨[⟨.name name, offset, offset + byteSize name.toList⟩], none⟩ := by
  obtain ⟨c, rest, htext, hstart, hrest⟩ := isIdentifier_iff.1 h
  have hfirst : Token.first? name.toList = some (.name name, []) := by
    rw [htext, Token.first?_of_isNameStart hstart, List.takeWhile_eq_self_iff.2 hrest,
      List.dropWhile_eq_nil_iff.2 hrest, ← htext, String.ofList_toList]
  rw [lexFrom_of_first? hfirst, lexFrom_nil]
  rfl

/-- A name at the beginning of a text is an identifier. -/
theorem isIdentifier_of_first? {cs rest : List Char} {text : String}
    (h : Token.first? cs = some (.name text, rest)) : isIdentifier text = true := by
  unfold Token.first? at h
  split at h
  · cases h
  · cases cs with
    | nil => cases h
    | cons c tail =>
        dsimp only at h
        split at h
        · next hstart =>
          cases h
          refine isIdentifier_iff.2 ⟨c, _, String.toList_ofList, hstart, ?_⟩
          exact fun d hd => List.mem_takeWhile_imp hd
        · obtain ⟨token, htoken, heq⟩ := Option.map_eq_some_iff.1 h
          obtain ⟨rfl, -⟩ := Prod.mk.inj heq
          -- a single character is punctuation only, and no name
          unfold punctuation? at htoken
          split at htoken <;> cases htoken

/-- So is every name among the tokens of a text. -/
theorem isIdentifier_of_mem_lexFrom {offset : Nat} {cs : List Char} {text : String}
    (h : .name text ∈ (lexFrom offset cs).tokens.map Spanned.token) : isIdentifier text = true := by
  fun_induction lexFrom offset cs with
  | case1 => cases h
  | case2 offset c rest hspacing ih => exact ih h
  | case3 => cases h
  | case4 offset c rest hspacing token rest' hfirst stop lexed ih =>
      rcases List.mem_cons.1 h with h | h
      · obtain rfl : .name text = token := h
        exact isIdentifier_of_first? hfirst
      · exact ih h

/-! ## Names in trees -/

/-- The name that a token is. -/
def Token.name? : Token → Option String
  | .name text => some text
  | _ => none

namespace Expression

/-- The names in a tree, from left to right. -/
def names : Expression → List String
  | .number _ => []
  | .name text => [text]
  | .negate operand => operand.names
  | .binary _ left right => left.names ++ right.names

theorem names_foldr_apply (signs : List Sign) (e : Expression) :
    (signs.foldr Sign.apply e).names = e.names := by
  induction signs with
  | nil => rfl
  | cons sign signs ih => cases sign <;> exact ih

theorem names_foldl_joined (steps : List Step) (first : Expression) :
    (steps.foldl Step.joined first).names =
      first.names ++ steps.flatMap fun step => step.right.names := by
  induction steps generalizing first with
  | nil => simp
  | cons step steps ih => rw [List.foldl_cons, ih]; simp [Step.joined, names]

/-- The names of the steps of a sum or a product are those of their right sides. -/
theorem filterMap_flatMap_text {steps : List Step}
    (h : ∀ step ∈ steps, step.tokens.filterMap Token.name? = step.right.names) :
    (steps.flatMap Step.text).filterMap Token.name? =
      steps.flatMap fun step => step.right.names := by
  rw [List.filterMap_flatMap]
  refine List.flatMap_congr fun step hstep => ?_
  rw [Step.text, List.filterMap_cons, ← h step hstep]
  cases step.operator <;> rfl

/-- The names in the tree of a derivation are the names among its tokens. -/
theorem names_of_derives {category : Category} {tokens : List Token} {e : Expression}
    (h : Derives category tokens e) : tokens.filterMap Token.name? = e.names := by
  induction h with
  | number literal => rfl
  | name text => rfl
  | group inside ih =>
      rw [List.filterMap_cons, List.filterMap_append, ih]
      exact List.append_nil _
  | unary signs atom ih =>
      have hsigns : (signs.map Sign.token).filterMap Token.name? = [] := by
        rw [List.filterMap_map, List.filterMap_eq_nil_iff]
        intro sign _
        cases sign <;> rfl
      rw [List.filterMap_append, hsigns, ih, names_foldr_apply, List.nil_append]
  | product head operators rights ih ihs =>
      rw [List.filterMap_append, ih, filterMap_flatMap_text ihs, names_foldl_joined]
  | sum head operators rights ih ihs =>
      rw [List.filterMap_append, ih, filterMap_flatMap_text ihs, names_foldl_joined]

/-- Whatever name stands in the tree of a text is an identifier. -/
theorem isIdentifier_of_mem_names {source name : String} {tree : Expression}
    (h : parse source = .ok tree) (hname : name ∈ tree.names) : isIdentifier name = true := by
  unfold parse at h
  dsimp only at h
  split at h
  · cases h
  · have hrun := Outcome.mapError_eq_ok_iff.1 h
    have hderives := Reading.derives_of_run Reading.reads_start hrun
    rw [List.nil_append] at hderives
    rw [← names_of_derives hderives] at hname
    obtain ⟨token, htoken, htext⟩ := List.mem_filterMap.1 hname
    obtain rfl : token = .name name := by
      cases token <;> cases htext
      rfl
    exact isIdentifier_of_mem_lexFrom htoken

/-- **Names are identifiers.** A text is read as the name that it is exactly when it is an
identifier. -/
theorem parse_eq_name_iff {name : String} :
    parse name = .ok (.name name) ↔ isIdentifier name = true := by
  constructor
  · intro h
    exact isIdentifier_of_mem_names h (List.mem_singleton_self name)
  · intro h
    rw [parse, lex, lexFrom_identifier h]
    rfl

end Expression

end GrowthGrammar
