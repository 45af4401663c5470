import GrowthGrammar.Expression.Reading
import GrowthGrammar.Proofs.Decimal.Plain
import GrowthGrammar.Proofs.Expression.Token
import GrowthGrammar.Proofs.Outcome

/-!
# Numbers as expressions

The plain form of a finite double is an expression that needs no names: one literal, behind a minus
token if the double is negative. Its value is the double (`evaluate_plainText`), and whatever an
expression evaluates to is finite (`isFinite_of_evaluate`).
-/

set_option autoImplicit false

namespace GrowthGrammar

open Decimal (Literal plain plainText)
open Outcome

/-! ## Tokens -/

/-- The text of a plain literal is one token. -/
theorem lexFrom_text {l : Literal} (h : l.IsPlain) (offset : Nat) :
    lexFrom offset l.text = ⟨[⟨.number l, offset, offset + byteSize l.text⟩], none⟩ := by
  rw [lexFrom_of_first? (Token.first?_of_scan (Literal.scan_text h)), lexFrom_nil]
  rfl

theorem lexFrom_minus (offset : Nat) (cs : List Char) :
    lexFrom offset ('-' :: cs) =
      ⟨⟨.minus, offset, offset + 1⟩ :: (lexFrom (offset + 1) cs).tokens,
        (lexFrom (offset + 1) cs).fault⟩ :=
  lexFrom_of_first? rfl offset

/-! ## Values -/

theorem isFinite_of_evaluate {lookup : String → Option Float} {source : String} {x : Float}
    (h : Expression.evaluate lookup source = .ok x) : x.isFinite = true := by
  obtain ⟨tree, -, h⟩ := bind_eq_ok_iff.1 h
  obtain ⟨value, -, h⟩ := bind_eq_ok_iff.1 h
  split at h
  · next hfinite =>
    obtain rfl := Except.ok.inj h
    exact hfinite
  · cases h

/-- **Numbers evaluate to themselves.** The plain form of a finite double has that double as its
value, whatever the names stand for. -/
theorem evaluate_plainText (lookup : String → Option Float) {x : Float} (hx : x.isFinite = true) :
    Expression.evaluate lookup (plainText x) = .ok x := by
  obtain ⟨l, hplain, htext, hread⟩ := Decimal.exists_literal_of_isFinite hx
  have hchars : (plainText x).toList =
      (if Decimal.isNegative x then ['-'] else []) ++ l.text := by
    rw [plainText, String.toList_ofList, plain.write_of_isFinite hx, htext]
  -- one number token, or a minus token before it
  unfold Expression.evaluate Expression.parse lex
  rw [hchars]
  cases hneg : Decimal.isNegative x with
  | false =>
      rw [hneg] at hread
      have hvalue : l.toFloat = x := hread
      rw [if_neg Bool.false_ne_true, List.nil_append, lexFrom_text hplain]
      show (if l.toFloat.isFinite then Except.ok l.toFloat else _) = _
      rw [hvalue, if_pos hx]
  | true =>
      rw [hneg] at hread
      have hvalue : -l.toFloat = x := hread
      rw [if_pos rfl, List.singleton_append, lexFrom_minus, lexFrom_text hplain]
      show (if (-l.toFloat).isFinite then Except.ok (-l.toFloat) else _) = _
      rw [hvalue, if_pos hx]

theorem toList_plainText_ne_nil {x : Float} (hx : x.isFinite = true) :
    (plainText x).toList ≠ [] := by
  obtain ⟨l, hplain, htext, -⟩ := Decimal.exists_literal_of_isFinite hx
  rw [plainText, String.toList_ofList, plain.write_of_isFinite hx, ← htext]
  intro hnil
  exact Literal.text_ne_nil_of_scan (Literal.scan_text hplain) (List.append_eq_nil_iff.1 hnil).2

/-- The characters of a plain form. -/
theorem mem_plainText {x : Float} (hx : x.isFinite = true) {c : Char}
    (hc : c ∈ (plainText x).toList) : c.isDigit = true ∨ c = '.' ∨ c = '-' := by
  obtain ⟨l, hplain, htext, -⟩ := Decimal.exists_literal_of_isFinite hx
  rw [plainText, String.toList_ofList, plain.write_of_isFinite hx, ← htext] at hc
  rcases List.mem_append.1 hc with hc | hc
  · split at hc
    · exact .inr (.inr (List.mem_singleton.1 hc))
    · cases hc
  · rcases Literal.mem_text hplain hc with hc | hc
    · exact .inl hc
    · exact .inr (.inl hc)

end GrowthGrammar
