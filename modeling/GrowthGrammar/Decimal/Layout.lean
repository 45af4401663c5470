import GrowthGrammar.Decimal.Shortest

/-!
# Layouts of doubles

How a double is written: its shortest digits, placed by a `Layout`. A layout fixes for which
magnitudes the digits stand around a point, how a whole number ends, how a positive exponent is
marked, and the names of the values that are no numbers.
-/

set_option autoImplicit false

namespace GrowthGrammar.Decimal

/-- The decisions of a written form. The *point position* of `0.d₁d₂… · 10 ^ p` is `p`: it counts
the digits before the point, or, when not positive, the zeros after it. -/
structure Layout where
  /-- Whether digits with this point position are written around a point. -/
  isPositional : Int → Bool
  /-- What follows the digits of a whole number. -/
  wholeEnding : List Char
  /-- The sign of a positive exponent. -/
  plusSign : List Char
  /-- Which of two equally near decimals is written. -/
  tie : Tie
  /-- The name of positive infinity; the negative one has a minus sign in front. -/
  infinityName : List Char
  /-- The name of a value that is not a number. -/
  nanName : List Char

/-- Digits around a point at the given position. -/
def Layout.positional (layout : Layout) (digits : List Char) (point : Int) : List Char :=
  if (digits.length : Int) ≤ point then
    digits ++ List.replicate (point.toNat - digits.length) '0' ++ layout.wholeEnding
  else if 0 < point then
    digits.take point.toNat ++ '.' :: digits.drop point.toNat
  else
    '0' :: '.' :: (List.replicate (-point).toNat '0' ++ digits)

/-- One digit before the point, the rest after it, and an exponent. -/
def Layout.scientific (layout : Layout) (digits : List Char) (point : Int) : List Char :=
  let exponent := point - 1
  let mantissa :=
    match digits with
    | [] => []
    | [d] => [d]
    | d :: rest => d :: '.' :: rest
  let sign := if exponent < 0 then ['-'] else layout.plusSign
  mantissa ++ 'e' :: (sign ++ numeral exponent.natAbs)

/-- The written form of the magnitude of a finite double. -/
def Layout.magnitude (layout : Layout) (b : Binary) : List Char :=
  if b.significand = 0 then '0' :: layout.wholeEnding
  else
    let decimal := shortest layout.tie b
    let digits := numeral decimal.significand
    let point := (digits.length : Int) + decimal.exponent
    if layout.isPositional point then layout.positional digits point
    else layout.scientific digits point

/-- The written form of a double. -/
def Layout.write (layout : Layout) (x : Float) : List Char :=
  let sign := if isNegative x then ['-'] else []
  if x.isNaN then layout.nanName
  else if x.isInf then sign ++ layout.infinityName
  else sign ++ layout.magnitude (Binary.ofFloat x)

/-- The plain form: never an exponent, and a whole number stands without a point. Phrases and
messages write numbers this way. -/
def plain : Layout where
  isPositional _ := true
  wholeEnding := []
  plusSign := []
  tie := .up
  infinityName := ['i', 'n', 'f']
  nanName := ['N', 'a', 'N']

/-- The plain form as a string. -/
def plainText (x : Float) : String :=
  String.ofList (plain.write x)

end GrowthGrammar.Decimal
