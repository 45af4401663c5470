import GrowthGrammar.Expression.Token

/-!
# Cutting a text into tokens

What happens at the start of a text, one equation for each case in which cutting goes on or has ended:
the text is empty, it starts with spacing, or it starts with a token.
-/

set_option autoImplicit false

namespace GrowthGrammar

variable {c : Char} {cs rest : List Char} {token : Token}

theorem isSpacing_iff :
    isSpacing c = true ↔ c = ' ' ∨ c = '\t' ∨ c = '\n' ∨ c = '\x0c' ∨ c = '\r' := by
  simp only [isSpacing, Bool.or_eq_true, beq_iff_eq, or_assoc]

/-- No token begins with spacing. -/
theorem Token.first?_of_isSpacing (h : isSpacing c = true) (rest : List Char) :
    Token.first? (c :: rest) = none := by
  rcases isSpacing_iff.1 h with rfl | rfl | rfl | rfl | rfl <;> rfl

/-- Where a literal is scanned, it is the token. -/
theorem Token.first?_of_scan {literal : Decimal.Literal}
    (h : Decimal.Literal.scan cs = some (literal, rest)) :
    Token.first? cs = some (.number literal, rest) := by
  unfold Token.first?
  rw [h]

theorem lexFrom_nil (offset : Nat) : lexFrom offset [] = ⟨[], none⟩ := by
  rw [lexFrom]

theorem lexFrom_of_isSpacing (h : isSpacing c = true) (offset : Nat) (rest : List Char) :
    lexFrom offset (c :: rest) = lexFrom (offset + c.utf8Size) rest := by
  rw [lexFrom, if_pos h]

/-- The first token is cut off. -/
theorem lexFrom_of_first? (h : Token.first? cs = some (token, rest)) (offset : Nat) :
    lexFrom offset cs =
      ⟨⟨token, offset, offset + byteSize token.text⟩ ::
          (lexFrom (offset + byteSize token.text) rest).tokens,
        (lexFrom (offset + byteSize token.text) rest).fault⟩ := by
  cases cs with
  | nil => cases h
  | cons c tail =>
      have hspacing : ¬isSpacing c = true := by
        intro hspacing
        rw [Token.first?_of_isSpacing hspacing] at h
        cases h
      rw [lexFrom, if_neg hspacing]
      split
      · next hnone =>
        rw [h] at hnone
        cases hnone
      · next hsome =>
        rw [h] at hsome
        cases hsome
        rfl

end GrowthGrammar
