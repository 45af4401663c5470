import GrowthGrammar.Decimal.Layout
import GrowthGrammar.Decimal.Literal

/-!
# JSON numbers

Numbers are written with their shortest digits, positionally for magnitudes from `10⁻⁵` up to
`10¹⁶` and with an exponent outside. They are read by a quick rule in floating-point arithmetic: the digits
are gathered into a 64-bit integer, which is then multiplied or divided by a power of ten. Both the
integer and the scaling are rounded, so a number of many digits may be read one place off.
-/

set_option autoImplicit false

namespace GrowthGrammar.Json

/-- How JSON texts write finite numbers. -/
def numberLayout : Decimal.Layout where
  isPositional point := -4 ≤ point && point ≤ 16
  wholeEnding := ['.', '0']
  plusSign := ['+']
  tie := .even
  infinityName := ['n', 'u', 'l', 'l']
  nanName := ['n', 'u', 'l', 'l']

/-- The greatest 64-bit number. -/
def greatestWord : Nat := Nat.pow 2 64 - 1

/-- Gathers digits into a 64-bit integer as long as it can hold them, and counts the digits left. -/
def gather (significand : Nat) : List Char → Nat × Nat
  | [] => (significand, 0)
  | c :: rest =>
    let next := 10 * significand + Decimal.digitValue c
    if next ≤ greatestWord then gather next rest else (significand, rest.length + 1)

/-- The power `10 ^ n` as a double. -/
def powerOfTen (n : Nat) : Float :=
  Decimal.nearest 1 n

/-- Scales a magnitude by a power of ten. None if it grows beyond every double; a power too small
for a double is applied in steps. -/
def scale (magnitude : Float) (exponent : Int) : Option Float :=
  if 0 ≤ exponent then
    if exponent ≤ 308 then
      let scaled := magnitude * powerOfTen exponent.toNat
      if scaled.isInf then none else some scaled
    else if magnitude == 0 then some magnitude
    else none
  else if -308 ≤ exponent then some (magnitude / powerOfTen exponent.natAbs)
  else if magnitude == 0 then some magnitude
  else scale (magnitude / powerOfTen 308) (exponent + 308)
termination_by exponent.natAbs

/-- The exponent written in a numeral; none if it is beyond 32 bits. -/
def exponent? (e : Decimal.Exponent) : Option Int :=
  if Decimal.value e.digits < Nat.pow 2 31 then some e.value else none

/-- The magnitude of a numeral, or none if it is beyond every double. -/
def magnitude? (l : Decimal.Literal) : Option Float :=
  let (whole, dropped) := gather 0 l.whole
  let fraction := l.fraction.getD []
  let (significand, unread) := gather whole fraction
  -- whole digits that did not fit scale the integer up, and fraction digits that did scale it down
  let start : Int := (dropped : Int) - ((fraction.length - unread : Nat) : Int)
  let magnitude := Float.ofNat significand
  match l.exponent with
  | none => scale magnitude start
  | some e =>
    match exponent? e with
    | some exponent => scale magnitude (start + exponent)
    | none => if significand = 0 ∨ e.sign = some '-' then some 0 else none

/-- The number that a numeral stands for. -/
def number? (negative : Bool) (l : Decimal.Literal) : Option Float :=
  (magnitude? l).map fun magnitude => if negative then -magnitude else magnitude

/-- The numeral at the start of a text: a decimal literal without needless leading zeros, and with
digits on both sides of a point. -/
def scanNumeral (cs : List Char) : Option (Decimal.Literal × List Char) :=
  match Decimal.Literal.scan cs with
  | some (l, rest) =>
    let wellWritten :=
      !l.whole.isEmpty && (l.whole.head? != some '0' || l.whole.length == 1) &&
        l.fraction != some []
    if wellWritten then some (l, rest) else none
  | none => none

end GrowthGrammar.Json
