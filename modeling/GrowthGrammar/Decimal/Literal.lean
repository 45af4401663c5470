import GrowthGrammar.Decimal.Numeral

/-!
# Decimal literals

An unsigned decimal literal is a run of digits with an optional point and an optional exponent,
such as `12`, `3.5`, `.5`, `1.` or `2.5E-3`; a literal that starts with its point has a digit
after it. `Literal.scan` takes the longest literal at the start of a text, so `2e` begins with
the literal `2` and `2e1` is one literal. `Literal.toFloat` is the double nearest to the value
of a literal. `text_append_of_scan` says that scanning loses nothing.
-/

set_option autoImplicit false

namespace GrowthGrammar.Decimal

/-- Splits a text after its leading digits. -/
def spanDigits (cs : List Char) : List Char × List Char :=
  (cs.takeWhile Char.isDigit, cs.dropWhile Char.isDigit)

/-- The exponent part of a literal: its mark `e` or `E`, its sign if written, and its digits. -/
structure Exponent where
  mark : Char
  sign : Option Char
  digits : List Char
  deriving Repr, DecidableEq

/-- The characters of an exponent part. -/
def Exponent.text (e : Exponent) : List Char :=
  e.mark :: (e.sign.toList ++ e.digits)

/-- The value of an exponent part. -/
def Exponent.value (e : Exponent) : Int :=
  let magnitude : Int := Decimal.value e.digits
  if e.sign = some '-' then -magnitude else magnitude

/-- The digits after an exponent mark and sign; an exponent without digits is none. -/
def Exponent.scanDigits (mark : Char) (sign : Option Char) (cs : List Char) :
    Option (Exponent × List Char) :=
  let (digits, rest) := spanDigits cs
  if digits.isEmpty then none else some (⟨mark, sign, digits⟩, rest)

/-- The exponent part at the start of a text, if there is a complete one. -/
def Exponent.scan : List Char → Option (Exponent × List Char)
  | mark :: cs =>
    if mark = 'e' ∨ mark = 'E' then
      match cs with
      | '+' :: rest => Exponent.scanDigits mark (some '+') rest
      | '-' :: rest => Exponent.scanDigits mark (some '-') rest
      | rest => Exponent.scanDigits mark none rest
    else none
  | [] => none

/-- An unsigned decimal literal. `fraction` is absent when no point is written. -/
structure Literal where
  whole : List Char
  fraction : Option (List Char)
  exponent : Option Exponent
  deriving Repr, DecidableEq

namespace Literal

/-- The characters of a literal. -/
def text (l : Literal) : List Char :=
  l.whole ++ (match l.fraction with | some digits => '.' :: digits | none => []) ++
    (match l.exponent with | some e => e.text | none => [])

/-- Completes a literal with the exponent part that follows it, if there is one. -/
def withExponent (whole : List Char) (fraction : Option (List Char)) (cs : List Char) :
    Literal × List Char :=
  match Exponent.scan cs with
  | some (e, rest) => (⟨whole, fraction, some e⟩, rest)
  | none => (⟨whole, fraction, none⟩, cs)

/-- The longest literal at the start of a text, with the text after it. -/
def scan (cs : List Char) : Option (Literal × List Char) :=
  let (whole, rest) := spanDigits cs
  match rest with
  | '.' :: afterPoint =>
    let (fraction, rest) := spanDigits afterPoint
    if whole.isEmpty && fraction.isEmpty then none
    else some (withExponent whole (some fraction) rest)
  | _ => if whole.isEmpty then none else some (withExponent whole none rest)

/-- The literal that a whole text is. -/
def ofChars? (cs : List Char) : Option Literal :=
  match scan cs with
  | some (l, []) => some l
  | _ => none

/-- All digits of the literal, read as one whole number. -/
def significand (l : Literal) : Nat :=
  value (l.whole ++ l.fraction.getD [])

/-- The power of ten by which `significand` is scaled. -/
def scale (l : Literal) : Int :=
  (match l.exponent with | some e => e.value | none => 0) - ((l.fraction.getD []).length : Int)

end Literal

/-- Positive infinity. -/
def infinity : Float :=
  Float.ofBits 0x7FF0000000000000

/-- The double nearest to `significand · 10 ^ scale`, ties to the even neighbour. A value with
more than 310 digits before the point is beyond every double, and one with more than 330 zeros
after it is nearer to zero than to the least positive double; both are settled before any power
of ten is computed. -/
def nearest (significand : Nat) (scale : Int) : Float :=
  if significand = 0 then 0
  else
    let point := ((numeral significand).length : Int) + scale
    if point > 310 then infinity
    else if point < -330 then 0
    else Float.ofScientific significand (scale < 0) scale.natAbs

/-- The double nearest to the value of a literal. -/
def Literal.toFloat (l : Literal) : Float :=
  nearest l.significand l.scale

theorem spanDigits_append (cs : List Char) : (spanDigits cs).1 ++ (spanDigits cs).2 = cs := by
  simp [spanDigits, List.takeWhile_append_dropWhile]

theorem Exponent.text_append_of_scanDigits {mark : Char} {sign : Option Char}
    {cs rest : List Char} {e : Exponent} (h : scanDigits mark sign cs = some (e, rest)) :
    e.text ++ rest = mark :: (sign.toList ++ cs) := by
  simp only [scanDigits] at h
  split at h
  · cases h
  · obtain ⟨rfl, rfl⟩ := Prod.mk.inj (Option.some.inj h)
    simp [Exponent.text, spanDigits_append]

theorem Exponent.text_append_of_scan {cs rest : List Char} {e : Exponent}
    (h : scan cs = some (e, rest)) : e.text ++ rest = cs := by
  cases cs with
  | nil => cases h
  | cons mark cs =>
    simp only [scan] at h
    split at h
    · split at h <;> simpa using text_append_of_scanDigits h
    · cases h

theorem Literal.text_append_withExponent (whole : List Char) (fraction : Option (List Char))
    (cs : List Char) :
    (withExponent whole fraction cs).1.text ++ (withExponent whole fraction cs).2 =
      whole ++ (match fraction with | some digits => '.' :: digits | none => []) ++ cs := by
  unfold withExponent
  split
  · next e rest h =>
    simp only [Literal.text, List.append_assoc, Exponent.text_append_of_scan h]
  · simp [Literal.text]

/-- Scanning a literal loses no character. -/
theorem Literal.text_append_of_scan {cs rest : List Char} {l : Literal}
    (h : scan cs = some (l, rest)) : l.text ++ rest = cs := by
  have hcs := spanDigits_append cs
  simp only [scan] at h
  split at h
  · next afterPoint hpoint =>
    split at h
    · cases h
    · have key := text_append_withExponent (spanDigits cs).1 (some (spanDigits afterPoint).1)
        (spanDigits afterPoint).2
      rw [Option.some.inj h] at key
      simp only at key
      rw [key, List.append_assoc, List.cons_append, spanDigits_append, ← hpoint, hcs]
  · split at h
    · cases h
    · have key := text_append_withExponent (spanDigits cs).1 none (spanDigits cs).2
      rw [Option.some.inj h] at key
      simpa [hcs] using key

/-- A literal has at least one character. -/
theorem Literal.text_ne_nil_of_scan {cs rest : List Char} {l : Literal}
    (h : scan cs = some (l, rest)) : l.text ≠ [] := by
  simp only [scan] at h
  split at h
  · split at h
    · cases h
    · have := Option.some.inj h
      unfold withExponent at this
      split at this <;> (obtain ⟨rfl, _⟩ := Prod.mk.inj this; simp [Literal.text])
  · split at h
    · cases h
    · next hne =>
      have := Option.some.inj h
      unfold withExponent at this
      split at this <;> (obtain ⟨rfl, _⟩ := Prod.mk.inj this; simp_all [Literal.text])

end GrowthGrammar.Decimal
