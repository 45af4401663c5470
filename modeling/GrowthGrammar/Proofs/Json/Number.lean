import GrowthGrammar.Json.Value
import GrowthGrammar.Proofs.Decimal.Layout
import GrowthGrammar.Proofs.Decimal.Plain

/-!
# JSON numbers are read back, or nearly so

A finite double is written as a numeral in its interval (`exists_numeral_of_isFinite`). The digits
are gathered and scaled in floating-point arithmetic, which rounds twice, so the double that is
read may be a neighbour. If there are few digits and the power of ten is small, both are doubles,
only the scaling rounds, and the double is kept (`numeralValue?_of_isShort`).
-/

set_option autoImplicit false

namespace GrowthGrammar.Json

open Decimal (Binary Ends Exponent Literal numeral value)

/-! ## Numerals -/

/-- A literal that JSON allows. The exponent is one that the reader can hold. -/
structure IsNumeral (l : Literal) : Prop where
  isWritten : l.IsWritten
  head : l.whole.head? = some '0' → l.whole.length = 1
  fraction_ne : l.fraction ≠ some []
  exponent : ∀ e, l.exponent = some e → value e.digits < 2 ^ 31

/-- A numeral is scanned as a whole. -/
theorem scanNumeral_append {l : Literal} (h : IsNumeral l) {rest : List Char}
    (hrest : Ends rest) : scanNumeral (l.text ++ rest) = some (l, rest) := by
  have hnonempty : l.whole.isEmpty = false := List.isEmpty_eq_false_iff.2 h.isWritten.whole_ne_nil
  have hhead : (l.whole.head? != some '0' || l.whole.length == 1) = true := by
    by_cases hzero : l.whole.head? = some '0'
    · simp [h.head hzero]
    · simp [hzero]
  have hscan := Literal.scan_text_append h.isWritten.isWellFormed hrest
  simp [scanNumeral, hscan, hnonempty, hhead, h.fraction_ne]

/-! ## Written magnitudes -/

section Magnitudes

variable {a : Nat} {k : Int}

/-- Whole numbers get a point and a zero at their end. -/
theorem exists_numeral_of_whole (ha : 0 < a) (hk : 0 ≤ k) :
    ∃ l : Literal, IsNumeral l ∧
      l.text = numberLayout.positional (Decimal.numeral a) ((Decimal.numeral a).length + k) ∧
      l.amount = a * 10 ^ k := by
  have hne := Decimal.numeral_ne_nil a
  refine ⟨Decimal.whole (Decimal.numeral a) k.toNat (some ['0']),
    ⟨Decimal.isWritten_whole hne (fun _ => Decimal.isDigit_of_mem_numeral) _ ?_, ?_, ?_,
      fun e he => nomatch he⟩,
    Decimal.text_whole numberLayout hk rfl, Decimal.amount_whole a hk rfl⟩
  · intro c hc
    obtain rfl := List.mem_singleton.1 hc
    rfl
  · intro hzero
    rw [Decimal.whole, List.head?_append_of_ne_nil (Decimal.numeral a) hne] at hzero
    exact absurd hzero (Decimal.head?_numeral ha)
  · simp [Decimal.whole]

/-- The point falls before one of the digits, or before all of them. -/
theorem exists_numeral_of_pointed (ha : 0 < a) (hk : k < 0) :
    ∃ l : Literal, IsNumeral l ∧
      l.text = numberLayout.positional (Decimal.numeral a) ((Decimal.numeral a).length + k) ∧
      l.amount = a * 10 ^ k := by
  have hne := Decimal.numeral_ne_nil a
  refine ⟨Decimal.pointed (Decimal.numeral a) ((Decimal.numeral a).length + k),
    ⟨Decimal.isWritten_pointed hne (fun _ => Decimal.isDigit_of_mem_numeral) _, ?_, ?_, ?_⟩,
    Decimal.text_pointed numberLayout (by omega), Decimal.amount_pointed a hk⟩
  · unfold Decimal.pointed
    split
    · next hpoint =>
      -- the digits before the point begin as the number does
      intro hzero
      rw [List.head?_take, if_neg (by omega)] at hzero
      exact absurd hzero (Decimal.head?_numeral ha)
    · exact fun _ => rfl
  · unfold Decimal.pointed
    split
    · intro hnil
      have hlength := congrArg List.length (Option.some.inj hnil)
      rw [List.length_drop, List.length_nil] at hlength
      omega
    · intro hnil
      exact hne (List.append_eq_nil_iff.1 (Option.some.inj hnil)).2
  · unfold Decimal.pointed
    split
    · exact fun e he => nomatch he
    · exact fun e he => nomatch he

/-- An exponent part with a sign in any case. -/
def signedExponent (exponent : Int) : Exponent :=
  ⟨'e', some (if exponent < 0 then '-' else '+'), Decimal.numeral exponent.natAbs⟩

theorem isWritten_signedExponent (exponent : Int) : (signedExponent exponent).IsWritten := by
  refine ⟨.inl rfl, ?_, Decimal.numeral_ne_nil _, fun _ => Decimal.isDigit_of_mem_numeral⟩
  by_cases hneg : exponent < 0
  · exact .inr (.inr (by simp [signedExponent, hneg]))
  · exact .inr (.inl (by simp [signedExponent, hneg]))

theorem value_signedExponent (exponent : Int) : (signedExponent exponent).value = exponent := by
  unfold signedExponent Exponent.value
  simp only [Decimal.value_numeral]
  by_cases hneg : exponent < 0
  · rw [if_pos hneg, if_pos rfl]
    omega
  · rw [if_neg hneg, if_neg (by decide)]
    omega

/-- One digit stands before the point, and an exponent follows. -/
theorem exists_numeral_of_scientific
    (hpoint : (((Decimal.numeral a).length : Int) + k - 1).natAbs < 2 ^ 31) :
    ∃ l : Literal, IsNumeral l ∧
      l.text = numberLayout.scientific (Decimal.numeral a) ((Decimal.numeral a).length + k) ∧
      l.amount = a * 10 ^ k := by
  have hvalue := Decimal.value_numeral a
  have hdigits : ∀ c ∈ Decimal.numeral a, c.isDigit = true :=
    fun _ => Decimal.isDigit_of_mem_numeral
  obtain ⟨d, digits, hnumeral⟩ := List.exists_cons_of_ne_nil (Decimal.numeral_ne_nil a)
  rw [hnumeral] at hpoint hvalue hdigits ⊢
  generalize hexponent : (((d :: digits).length : Int) + k - 1) = exponent at hpoint
  have hsmall : value (Decimal.numeral exponent.natAbs) < 2 ^ 31 := by
    rwa [Decimal.value_numeral]
  refine ⟨⟨[d], if digits = [] then none else some digits, some (signedExponent exponent)⟩,
    ⟨⟨List.cons_ne_nil _ _, ?_, ?_, ?_⟩, fun _ => rfl, ?_, ?_⟩, ?_, ?_⟩
  · intro c hc
    obtain rfl := List.mem_singleton.1 hc
    exact hdigits c List.mem_cons_self
  · intro c hc
    split at hc
    · cases hc
    · exact hdigits c (List.mem_cons_of_mem d hc)
  · rintro e he
    obtain rfl := Option.some.inj he
    exact isWritten_signedExponent exponent
  · dsimp only
    split
    · nofun
    · next hne => exact fun hnil => hne (Option.some.inj hnil)
  · rintro e he
    obtain rfl := Option.some.inj he
    exact hsmall
  · simp only [Decimal.Layout.scientific, hexponent, Literal.text, Exponent.text, signedExponent]
    have hplus : numberLayout.plusSign = ['+'] := rfl
    rw [hplus]
    by_cases hneg : exponent < 0
    · cases digits <;> simp [hneg]
    · cases digits <;> simp [hneg]
  · have hscale : exponent - (digits.length : ℕ) = k := by
      rw [← hexponent, List.length_cons]
      omega
    have hfraction :
        ((if digits = [] then none else some digits).getD [] : List Char) = digits := by
      split
      · next hnil => exact hnil.symm
      · rfl
    simp only [Literal.amount, Literal.significand, Literal.scale, hfraction, value_signedExponent,
      hscale, List.singleton_append, hvalue]

/-- Whatever the layout decides, a magnitude is a numeral of the same value. -/
theorem exists_numeral (ha : 0 < a)
    (hpoint : (((Decimal.numeral a).length : Int) + k - 1).natAbs < 2 ^ 31) :
    ∃ l : Literal, IsNumeral l ∧
      l.text =
        (if numberLayout.isPositional ((Decimal.numeral a).length + k) then
          numberLayout.positional (Decimal.numeral a) ((Decimal.numeral a).length + k)
        else numberLayout.scientific (Decimal.numeral a) ((Decimal.numeral a).length + k)) ∧
      l.amount = a * 10 ^ k := by
  split
  · by_cases hk : 0 ≤ k
    · exact exists_numeral_of_whole ha hk
    · exact exists_numeral_of_pointed ha (by omega)
  · exact exists_numeral_of_scientific hpoint

end Magnitudes

/-! ## Reading a numeral -/

theorem le_gathered (n : Nat) (digits : List Char) :
    n ≤ digits.foldl (fun n c => 10 * n + Decimal.digitValue c) n := by
  induction digits generalizing n with
  | nil => exact Nat.le_refl n
  | cons c digits ih => exact Nat.le_trans (by omega) (ih (10 * n + Decimal.digitValue c))

/-- No digit is left if all of them fit. -/
theorem gather_eq {n : Nat} {digits : List Char}
    (h : digits.foldl (fun n c => 10 * n + Decimal.digitValue c) n ≤ greatestWord) :
    gather n digits = (digits.foldl (fun n c => 10 * n + Decimal.digitValue c) n, 0) := by
  induction digits generalizing n with
  | nil => rfl
  | cons c digits ih =>
      have hnext := le_gathered (10 * n + Decimal.digitValue c) digits
      rw [gather, if_pos (Nat.le_trans hnext h)]
      exact ih h

/-- A numeral whose digits fit into 64 bits is read as its digits, scaled by its power of ten. -/
theorem magnitude?_eq {l : Literal} (h : IsNumeral l) (hfits : l.significand ≤ greatestWord) :
    magnitude? l = scale (Float.ofNat l.significand) l.scale := by
  have hgathered : l.significand =
      (l.fraction.getD []).foldl (fun n c => 10 * n + Decimal.digitValue c) (value l.whole) := by
    rw [Literal.significand, value, List.foldl_append]
    rfl
  have hwhole : gather 0 l.whole = (value l.whole, 0) := by
    refine gather_eq (Nat.le_trans (le_gathered _ (l.fraction.getD [])) ?_)
    rw [hgathered] at hfits
    exact hfits
  have hall : gather (value l.whole) (l.fraction.getD []) = (l.significand, 0) := by
    rw [hgathered] at hfits ⊢
    exact gather_eq hfits
  unfold magnitude?
  simp only [hwhole, hall, Nat.sub_zero]
  cases hexponent : l.exponent with
  | none => simp [Literal.scale, hexponent]
  | some e =>
      have hheld : exponent? e = some e.value := if_pos (h.exponent e hexponent)
      simp only [hheld, Literal.scale, hexponent]
      congr 1
      omega

/-! ## Short numerals -/

/-- Few enough digits and a small enough power of ten, so that both are doubles without rounding. -/
def isShort (l : Literal) : Bool :=
  l.significand < 2 ^ 53 && l.scale.natAbs ≤ 22

theorem isShort_iff {l : Literal} :
    isShort l = true ↔ l.significand < 2 ^ 53 ∧ l.scale.natAbs ≤ 22 := by
  simp [isShort]

/-- The powers of ten that are doubles. -/
theorem powerOfTen_table :
    ∀ e : Fin 23, powerOfTen e = Float.exactlyRepresentablePowersOfTen[e.val] := by
  decide +kernel

/-- Zero stays zero at every small scale. -/
theorem scale_zero {e : Int} (he : e.natAbs ≤ 22) : scale (Float.ofNat 0) e = some 0 := by
  have htable : ∀ n : Fin 23, scale (Float.ofNat 0) (n.val : Int) = some 0 ∧
      scale (Float.ofNat 0) (-(n.val : Int)) = some 0 := by
    decide +kernel
  have hn := htable ⟨e.natAbs, by omega⟩
  rcases Int.natAbs_eq e with habs | habs
  · rw [habs]
    exact hn.1
  · rw [habs]
    exact hn.2

/-- A small number is the same double in both ways of making it one. -/
theorem toFloat_eq_ofNat {m : Nat} (hm : 0 < m) (hlt : m < 2 ^ 53) :
    m.toUInt64.toFloat = Float.ofNat m := by
  obtain ⟨c, hc, hcanonical, -, hvalue, hofNat⟩ := Double.ofNat_eq hm hlt
  have hrounds : Double.RoundsTo c (Double.decimalValue m false 0) := by
    rw [Double.decimalValue, if_neg Bool.false_ne_true, pow_zero, mul_one, hvalue]
    exact Double.roundsTo_self hc
  have hsize : m.toUInt64.toNat = m := by
    show m % 2 ^ 64 = m
    omega
  have hmodel : (m.toUInt64.toFloat).toModel =
      .pack (Float.Model.UnpackedFloat.ofNat Float.Model.Format.binary64 m.toUInt64.toNat) := rfl
  rw [hsize, hofNat] at hmodel
  exact (congrArg Float.ofModel hmodel).trans
    (Double.ofScientific_short hcanonical hc hrounds hm ⟨hlt, by norm_num⟩).symm

/-- Scaling a small number by a small power of ten is the one operation of a short decimal. -/
theorem scale_eq {m : Nat} {e : Int} (hm : 0 < m) (hlt : m < 2 ^ 53) (he : e.natAbs ≤ 22)
    (hinf : (Float.ofScientific m (e < 0) e.natAbs).isInf = false) :
    scale (Float.ofNat m) e = some (Float.ofScientific m (e < 0) e.natAbs) := by
  have hpower : powerOfTen e.natAbs = _ := powerOfTen_table ⟨e.natAbs, by omega⟩
  have hshort : m < 2 ^ 53 ∧ e.natAbs ≤ 22 := ⟨hlt, he⟩
  unfold Float.ofScientific at hinf ⊢
  rw [dif_pos hshort] at hinf ⊢
  rw [toFloat_eq_ofNat hm hlt] at hinf ⊢
  rw [scale]
  by_cases hneg : e < 0
  · rw [if_neg (by omega), if_pos (by omega), hpower]
    simp [hneg]
  · have htoNat : e.toNat = e.natAbs := by omega
    simp only [hneg, decide_false, Bool.false_eq_true, if_false] at hinf ⊢
    rw [if_pos (by omega), if_pos (by omega), htoNat, hpower, hinf]
    simp

/-- A double is read from any short numeral in its interval. -/
theorem magnitude?_of_isShort {l : Literal} {b : Binary} (h : IsNumeral l)
    (hshort : isShort l = true) (hb : Double.IsCanonical b.significand b.exponent)
    (hpos : 0 < b.significand) (hrounds : Double.RoundsTo b l.amount) (hamount : 0 < l.amount) :
    magnitude? l =
      some (Float.ofModel (.pack (.finite .positive b.significand b.exponent hpos))) := by
  obtain ⟨hlt, hscale⟩ := isShort_iff.1 hshort
  have hfits : l.significand ≤ greatestWord := by
    unfold greatestWord
    rw [Nat.pow_eq]
    omega
  have hm : 0 < l.significand := by
    by_contra hzero
    rw [Literal.amount, Nat.eq_zero_of_not_pos hzero, Nat.cast_zero, zero_mul] at hamount
    exact lt_irrefl _ hamount
  rw [Literal.amount, ← Double.decimalValue_natAbs] at hrounds
  have hread := Double.ofScientific_short hb hpos hrounds hm ⟨hlt, hscale⟩
  have hinf : (Float.ofScientific l.significand (l.scale < 0) l.scale.natAbs).isInf = false := by
    rw [hread]
    show (Float.Model.pack _).unpack.isInf = false
    rw [Double.unpack_pack_finite .positive hpos hb]
    rfl
  rw [magnitude?_eq h hfits, scale_eq hm hlt hscale hinf, hread]

/-! ## Doubles -/

/-- The magnitude of a finite double is a numeral in its interval. -/
theorem exists_numeral_of_isFinite {x : Float} (hx : x.isFinite = true) :
    ∃ l : Literal, IsNumeral l ∧ l.text = numberLayout.magnitude (Binary.ofFloat x) ∧
      ((Binary.ofFloat x).significand = 0 ∧ l.significand = 0 ∨
        0 < (Binary.ofFloat x).significand ∧ 0 < l.amount ∧
          Double.RoundsTo (Binary.ofFloat x) l.amount) := by
  by_cases hzero : (Binary.ofFloat x).significand = 0
  · refine ⟨⟨['0'], some ['0'], none⟩, ⟨⟨List.cons_ne_nil _ _, ?_, ?_, fun e he => nomatch he⟩,
      fun _ => rfl, by decide, fun e he => nomatch he⟩, ?_, .inl ⟨hzero, rfl⟩⟩
    · intro c hc
      obtain rfl := List.mem_singleton.1 hc
      rfl
    · intro c hc
      obtain rfl := List.mem_singleton.1 hc
      rfl
    · rw [Decimal.Layout.magnitude, if_pos hzero]
      rfl
  · have hpos : 0 < (Binary.ofFloat x).significand := Nat.pos_of_ne_zero hzero
    have hb := Double.isCanonical_ofFloat hx
    have hdigits := Decimal.significand_shortest_pos .even hpos hb.lt
    have hrounds := Decimal.roundsTo_shortest .even hpos hb.lt
    obtain ⟨hhigh, hlow⟩ := Double.point_bounds hb hpos hrounds hdigits
    obtain ⟨l, hnumeral, htext, hamount⟩ := exists_numeral hdigits
      (k := (Decimal.shortest .even (Binary.ofFloat x)).exponent) (by omega)
    refine ⟨l, hnumeral, ?_, .inr ⟨hpos, ?_, by rwa [hamount]⟩⟩
    · rw [htext, Decimal.Layout.magnitude, if_neg hzero]
      rfl
    · have hdigitsq : (0 : ℚ) < (Decimal.shortest .even (Binary.ofFloat x)).significand := by
        exact_mod_cast hdigits
      rw [hamount]
      positivity

/-- The literal that the magnitude of a double is written as. -/
def literal? (x : Float) : Option Literal :=
  (scanNumeral (numberLayout.magnitude (Binary.ofFloat x))).map Prod.fst

/-- The number that is read where a double is written. -/
def numeralValue? (x : Float) : Option Float :=
  if x.isFinite then (literal? x).bind (number? (Decimal.isNegative x)) else none

theorem literal?_eq {x : Float} {l : Literal} (h : IsNumeral l)
    (htext : l.text = numberLayout.magnitude (Binary.ofFloat x)) : literal? x = some l := by
  have hscan := scanNumeral_append h Decimal.ends_nil
  rw [List.append_nil] at hscan
  rw [literal?, ← htext, hscan]
  rfl

theorem numeralValue?_eq {x : Float} (hx : x.isFinite = true) {l : Literal}
    (hl : literal? x = some l) :
    numeralValue? x = number? (Decimal.isNegative x) l := by
  rw [numeralValue?, if_pos hx, hl, Option.bind_some]

theorem isFinite_of_numeralValue? {x y : Float} (h : numeralValue? x = some y) :
    x.isFinite = true := by
  by_contra hx
  rw [numeralValue?, if_neg hx] at h
  cases h

/-- Whether the digits of a double are few enough to be read without rounding. -/
def isShortNumber (x : Float) : Bool :=
  (literal? x).any isShort

/-- **Short numbers.** A finite double with a short numeral is read as itself. -/
theorem numeralValue?_of_isShort {x : Float} (hx : x.isFinite = true)
    (hshort : isShortNumber x = true) : numeralValue? x = some x := by
  obtain ⟨l, hnumeral, htext, hmagnitude⟩ := exists_numeral_of_isFinite hx
  have hl := literal?_eq hnumeral htext
  have hlshort : isShort l = true := by
    rw [isShortNumber, hl] at hshort
    exact hshort
  obtain ⟨hlt, hscale⟩ := isShort_iff.1 hlshort
  rw [numeralValue?_eq hx hl, number?]
  obtain ⟨hzero, hnone⟩ | ⟨hpos, hamount, hrounds⟩ := hmagnitude
  · have hfits : l.significand ≤ greatestWord := by
      rw [hnone]
      exact Nat.zero_le _
    rw [magnitude?_eq hnumeral hfits, hnone, scale_zero hscale, Option.map_some]
    refine congrArg some (Decimal.eq_of_magnitude (u := .zero .positive) rfl rfl ?_)
    rw [Double.unpack_of_significand_eq_zero hzero, Double.signOf]
    split <;> rfl
  · have hb := Double.isCanonical_ofFloat hx
    rw [magnitude?_of_isShort hnumeral hlshort hb hpos hrounds hamount, Option.map_some]
    refine congrArg some (Decimal.eq_of_magnitude rfl
      (Double.unpack_pack_finite .positive hpos hb) ?_)
    rw [Double.unpack_of_significand_pos hx hpos, Double.signOf]
    split <;> rfl

/-- Among them are these. -/
example : [0.1, 2.5, 100, 0.0000001].all isShortNumber = true := by
  decide +kernel

end GrowthGrammar.Json
