import GrowthGrammar.Decimal.Layout
import GrowthGrammar.Proofs.Decimal.Digits
import GrowthGrammar.Proofs.Decimal.Scanning
import Mathlib

/-!
# Literals in a layout

The digits of a layout around a point are a literal: `whole`, if the point is behind all of them, and
else `pointed`, which is the same in every layout. It has the value that the digits and their point
position stand for.
-/

set_option autoImplicit false

namespace GrowthGrammar.Decimal

variable {digits : List Char}

/-! ## Values -/

/-- The exact value of a literal. -/
def Literal.amount (l : Literal) : ℚ :=
  l.significand * 10 ^ l.scale

theorem value_zeros_append (n : Nat) (digits : List Char) :
    value (List.replicate n '0' ++ digits) = value digits := by
  rw [value_append, value_replicate_zero, Nat.zero_mul, Nat.zero_add]

theorem isDigit_of_mem_zeros {n : Nat} {c : Char} (h : c ∈ List.replicate n '0') :
    c.isDigit = true := by
  obtain rfl := List.eq_of_mem_replicate h
  rfl

/-! ## Digits around a point -/

/-- Digits with zeros behind them, and a fraction. -/
def whole (digits : List Char) (zeros : Nat) (fraction : Option (List Char)) : Literal :=
  ⟨digits ++ List.replicate zeros '0', fraction, none⟩

theorem isWritten_whole (hne : digits ≠ []) (hdigits : ∀ c ∈ digits, c.isDigit = true) (zeros : Nat)
    {fraction : Option (List Char)} (hfraction : ∀ c ∈ fraction.getD [], c.isDigit = true) :
    (whole digits zeros fraction).IsWritten := by
  refine ⟨List.append_ne_nil_of_left_ne_nil hne _, fun c hc => ?_, hfraction,
    fun e he => nomatch he⟩
  rcases List.mem_append.1 hc with hc | hc
  · exact hdigits c hc
  · exact isDigit_of_mem_zeros hc

/-- Layouts write whole numbers so, with the fraction that is their ending. -/
theorem text_whole (layout : Layout) {k : Int} (hk : 0 ≤ k) {fraction : Option (List Char)}
    (hending : (whole [] 0 fraction).text = layout.wholeEnding) :
    (whole digits k.toNat fraction).text = layout.positional digits (digits.length + k) := by
  have hzeros : ((digits.length : Int) + k).toNat - digits.length = k.toNat := by omega
  rw [Layout.positional, if_pos (by omega), hzeros, ← hending]
  simp [Literal.text, whole]

/-- A fraction of zeros does not change the value. -/
theorem amount_whole (a : Nat) {k : Int} (hk : 0 ≤ k) {fraction : Option (List Char)}
    (hzero : value (fraction.getD []) = 0) :
    (whole (numeral a) k.toNat fraction).amount = a * 10 ^ k := by
  have hten : (10 : ℚ) ^ k.toNat = 10 ^ k := by
    rw [← zpow_natCast, Int.toNat_of_nonneg hk]
  have hvalue : value (numeral a ++ List.replicate k.toNat '0' ++ fraction.getD []) =
      a * 10 ^ k.toNat * 10 ^ (fraction.getD []).length := by
    rw [value_append, value_append, value_replicate_zero, value_numeral, List.length_replicate,
      hzero, Nat.add_zero, Nat.add_zero]
  simp only [Literal.amount, Literal.significand, Literal.scale, whole, hvalue, zero_sub]
  push_cast
  rw [hten, mul_assoc, zpow_neg, zpow_natCast, mul_inv_cancel₀ (by positivity), mul_one]

/-- Digits with the point before one of them, or before all of them and some zeros. -/
def pointed (digits : List Char) (point : Int) : Literal :=
  if 0 < point then ⟨digits.take point.toNat, some (digits.drop point.toNat), none⟩
  else ⟨['0'], some (List.replicate (-point).toNat '0' ++ digits), none⟩

/-- All layouts write them so. -/
theorem text_pointed (layout : Layout) {point : Int} (h : point < (digits.length : Int)) :
    (pointed digits point).text = layout.positional digits point := by
  rw [Layout.positional, if_neg (by omega), pointed]
  split <;> simp [Literal.text]

theorem isWritten_pointed (hne : digits ≠ []) (hdigits : ∀ c ∈ digits, c.isDigit = true)
    (point : Int) : (pointed digits point).IsWritten := by
  rw [pointed]
  split
  · next hpoint =>
    refine ⟨?_, fun c hc => hdigits c (List.mem_of_mem_take hc),
      fun c hc => hdigits c (List.mem_of_mem_drop hc), fun e he => nomatch he⟩
    have hlength := List.length_pos_iff.2 hne
    rw [← List.length_pos_iff, List.length_take]
    omega
  · refine ⟨List.cons_ne_nil _ _, fun c hc => ?_, fun c hc => ?_, fun e he => nomatch he⟩
    · obtain rfl := List.mem_singleton.1 hc
      rfl
    · rcases List.mem_append.1 hc with hc | hc
      · exact isDigit_of_mem_zeros hc
      · exact hdigits c hc

/-- They are worth what they stand for. -/
theorem amount_pointed (a : Nat) {k : Int} (hk : k < 0) :
    (pointed (numeral a) ((numeral a).length + k)).amount = a * 10 ^ k := by
  rw [pointed]
  split
  · next hpoint =>
    have hscale : (0 : Int) - ((numeral a).length -
        (((numeral a).length : Int) + k).toNat : ℕ) = k := by omega
    simp only [Literal.amount, Literal.significand, Literal.scale, Option.getD_some,
      List.take_append_drop, value_numeral, List.length_drop, hscale]
  · next hpoint =>
    have hscale : (0 : Int) - ((-(((numeral a).length : Int) + k)).toNat +
        (numeral a).length : ℕ) = k := by omega
    have hvalue : value ('0' :: (List.replicate (-(((numeral a).length : Int) + k)).toNat '0' ++
        numeral a)) = a :=
      (value_zeros_append 1 _).trans ((value_zeros_append _ _).trans (value_numeral a))
    simp only [Literal.amount, Literal.significand, Literal.scale, Option.getD_some,
      List.length_append, List.length_replicate, List.singleton_append, hvalue, hscale]

/-! ## Signs -/

/-- A finite double is written as its magnitude behind its sign. -/
theorem Layout.write_of_isFinite (layout : Layout) {x : Float} (hx : x.isFinite = true) :
    layout.write x =
      (if isNegative x then ['-'] else []) ++ layout.magnitude (Binary.ofFloat x) := by
  have hfinite : x.toModel.unpack.isFinite = true := hx
  have hnan : x.isNaN = false := by
    show x.toModel.unpack.isNaN = false
    cases hu : x.toModel.unpack with
    | notANumber =>
        rw [hu] at hfinite
        cases hfinite
    | infinity s => rfl
    | zero s => rfl
    | finite s m e hm => rfl
  have hinf : x.isInf = false := by
    show x.toModel.unpack.isInf = false
    cases hu : x.toModel.unpack with
    | notANumber => rfl
    | infinity s =>
        rw [hu] at hfinite
        cases hfinite
    | zero s => rfl
    | finite s m e hm => rfl
  rw [Layout.write, hnan, hinf]
  rfl

end GrowthGrammar.Decimal
