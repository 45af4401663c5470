import GrowthGrammar.Proofs.Decimal.Layout
import GrowthGrammar.Proofs.Decimal.Shortest
import GrowthGrammar.Proofs.Double.Reading

/-!
# Plain forms are read back

The plain form of a finite double is a literal, behind a minus sign if the sign bit is set
(`exists_literal_of_isFinite`). Its digits and its point stand for the shortest decimal of the
double, so reading them gives the double again, and a zero keeps its sign.
-/

set_option autoImplicit false

namespace GrowthGrammar.Decimal

/-! ## Literals without an exponent -/

/-- A literal as the plain form writes it: digits, and perhaps a point and more digits. -/
structure Literal.IsPlain (l : Literal) : Prop where
  whole_ne_nil : l.whole ≠ []
  whole : ∀ c ∈ l.whole, c.isDigit = true
  fraction : ∀ c ∈ l.fraction.getD [], c.isDigit = true
  exponent : l.exponent = none

theorem Literal.IsPlain.isWritten {l : Literal} (h : l.IsPlain) : l.IsWritten := by
  obtain ⟨hne, hwhole, hfraction, hnone⟩ := h
  refine ⟨hne, hwhole, hfraction, fun e he => ?_⟩
  rw [hnone] at he
  cases he

/-- A plain literal is scanned as a whole. -/
theorem Literal.scan_text {l : Literal} (h : l.IsPlain) : Literal.scan l.text = some (l, []) := by
  have hscan := Literal.scan_text_append h.isWritten.isWellFormed ends_nil
  rwa [List.append_nil] at hscan

/-- Its characters are digits and perhaps a point. -/
theorem Literal.mem_text {l : Literal} (h : l.IsPlain) {c : Char} (hc : c ∈ l.text) :
    c.isDigit = true ∨ c = '.' := by
  obtain ⟨whole, fraction, exponent⟩ := l
  obtain ⟨-, hwhole, hfraction, rfl⟩ := h
  cases fraction with
  | none =>
      have hmem : c ∈ whole := by simpa [Literal.text] using hc
      exact .inl (hwhole c hmem)
  | some digits =>
      have hmem : c ∈ whole ∨ c = '.' ∨ c ∈ digits := by simpa [Literal.text] using hc
      rcases hmem with hmem | rfl | hmem
      · exact .inl (hwhole c hmem)
      · exact .inr rfl
      · exact .inl (hfraction c hmem)

/-! ## Digits around a point -/

section Positional

variable (a : Nat) {k : Int}

/-- A whole number: zeros follow the digits. -/
theorem exists_literal_of_whole (hk : 0 ≤ k) :
    ∃ l : Literal, l.IsPlain ∧
      l.text = plain.positional (numeral a) ((numeral a).length + k) ∧
      l.amount = a * 10 ^ k := by
  have hwritten : (whole (numeral a) k.toNat none).IsWritten :=
    isWritten_whole (numeral_ne_nil a) (fun _ => isDigit_of_mem_numeral) _ fun c hc => nomatch hc
  exact ⟨whole (numeral a) k.toNat none,
    ⟨hwritten.whole_ne_nil, hwritten.whole, hwritten.fraction, rfl⟩,
    text_whole plain hk rfl, amount_whole a hk rfl⟩

/-- The point falls before one of the digits, or before all of them. -/
theorem exists_literal_of_pointed (hk : k < 0) :
    ∃ l : Literal, l.IsPlain ∧
      l.text = plain.positional (numeral a) ((numeral a).length + k) ∧
      l.amount = a * 10 ^ k := by
  have hwritten := isWritten_pointed (numeral_ne_nil a) (fun _ => isDigit_of_mem_numeral)
    ((numeral a).length + k)
  refine ⟨pointed (numeral a) ((numeral a).length + k),
    ⟨hwritten.whole_ne_nil, hwritten.whole, hwritten.fraction, ?_⟩,
    text_pointed plain (by omega), amount_pointed a hk⟩
  rw [pointed]
  split <;> rfl

/-- Wherever the point falls, the digits with their point are a literal of the same value. -/
theorem exists_literal_of_positional (k : Int) :
    ∃ l : Literal, l.IsPlain ∧
      l.text = plain.positional (numeral a) ((numeral a).length + k) ∧
      l.amount = a * 10 ^ k := by
  by_cases hwhole : 0 ≤ k
  · exact exists_literal_of_whole a hwhole
  · exact exists_literal_of_pointed a (by omega)

end Positional

/-! ## Doubles -/

/-- A negated double is packed with the other sign. -/
theorem neg_ofModel_pack {u : Float.Model.UnpackedFloat}
    (h : (Float.Model.pack u).unpack = u) :
    -Float.ofModel (.pack u) = Float.ofModel (.pack u.neg) := by
  show Float.ofModel (.pack (Float.Model.pack u).unpack.neg) = _
  rw [h]

theorem toFloat_of_roundsTo {l : Literal} {b : Binary} {a : Nat} {k : Int}
    (hb : Double.IsCanonical b.significand b.exponent) (hpos : 0 < b.significand) (ha : 0 < a)
    (hamount : l.amount = a * 10 ^ k) (hrounds : Double.RoundsTo b (a * 10 ^ k)) :
    l.toFloat =
      Float.ofModel (.pack (.finite .positive b.significand b.exponent hpos)) := by
  rw [← hamount] at hrounds
  -- a literal of zeros would stand for zero
  refine Double.nearest_eq hb hpos hrounds ?_
  by_contra hzero
  have hnone : l.amount = 0 := by
    rw [Literal.amount, Nat.eq_zero_of_not_pos hzero, Nat.cast_zero, zero_mul]
  rw [hamount] at hnone
  have : (0 : ℚ) < a := by exact_mod_cast ha
  have : (0 : ℚ) < a * 10 ^ k := by positivity
  linarith

/-- A double is told by its sign and by what its magnitude packs to. -/
theorem eq_of_magnitude {x y : Float} {u : Float.Model.UnpackedFloat}
    (hy : y = Float.ofModel (.pack u)) (hu : (Float.Model.pack u).unpack = u)
    (hx : x.toModel.unpack = if isNegative x then u.neg else u) :
    (if isNegative x then -y else y) = x := by
  -- a double is its unpacked form packed again
  have hpack : Float.ofModel (.pack x.toModel.unpack) = x := Float.ofBits_toBits x
  rw [hx] at hpack
  rw [hy]
  cases hneg : isNegative x with
  | true =>
      rw [hneg, if_pos rfl] at hpack
      rw [if_pos rfl, neg_ofModel_pack hu]
      exact hpack
  | false =>
      rw [hneg, if_neg Bool.false_ne_true] at hpack
      rw [if_neg Bool.false_ne_true]
      exact hpack

/-- **Plain forms are literals.** The plain form of a finite double is a literal behind its sign,
and reading that literal gives the double. -/
theorem exists_literal_of_isFinite {x : Float} (hx : x.isFinite = true) :
    ∃ l : Literal, l.IsPlain ∧ l.text = plain.magnitude (Binary.ofFloat x) ∧
      (if isNegative x then -l.toFloat else l.toFloat) = x := by
  by_cases hzero : (Binary.ofFloat x).significand = 0
  · have hunpack := Double.unpack_of_significand_eq_zero hzero
    refine ⟨⟨['0'], none, none⟩, ⟨List.cons_ne_nil _ _, ?_, ?_, rfl⟩, ?_, ?_⟩
    · intro c hc
      obtain rfl := List.mem_singleton.1 hc
      rfl
    · intro c hc
      cases hc
    · rw [Layout.magnitude, if_pos hzero]
      rfl
    · refine eq_of_magnitude (u := .zero .positive) rfl rfl ?_
      rw [hunpack, Double.signOf]
      split <;> rfl
  · have hpos : 0 < (Binary.ofFloat x).significand := Nat.pos_of_ne_zero hzero
    have hb := Double.isCanonical_ofFloat hx
    have hunpack := Double.unpack_of_significand_pos hx hpos
    have hdigits := significand_shortest_pos .up hpos hb.lt
    have hrounds := roundsTo_shortest .up hpos hb.lt
    obtain ⟨l, hplain, htext, hamount⟩ := exists_literal_of_positional
      (shortest .up (Binary.ofFloat x)).significand (shortest .up (Binary.ofFloat x)).exponent
    refine ⟨l, hplain, ?_, ?_⟩
    · rw [htext, Layout.magnitude, if_neg hzero]
      rfl
    · refine eq_of_magnitude (toFloat_of_roundsTo hb hpos hdigits hamount hrounds)
        (Double.unpack_pack_finite .positive hpos hb) ?_
      rw [hunpack, Double.signOf]
      split <;> rfl

end GrowthGrammar.Decimal
