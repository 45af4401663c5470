import GrowthGrammar.Decimal.Numeral

/-!
# Shortest decimals

A finite double other than zero has a magnitude `significand · 2 ^ exponent`, and the real numbers
that round to it form an interval around it (`Binary.interval`, in quarter units of the last binary
place). `shortest` is the decimal with the fewest digits inside that interval, and among those the
one nearest to the magnitude. All arithmetic is exact, on natural numbers.

Grids of powers of ten are tried from coarse to fine. If a point of a grid lies in the interval, so
does one of the two grid points next to the magnitude, so testing these two is enough.
-/

set_option autoImplicit false

namespace GrowthGrammar.Decimal

/-- The magnitude `significand · 2 ^ exponent` of a finite double. -/
structure Binary where
  significand : Nat
  exponent : Int
  deriving Repr, DecidableEq

/-- The magnitude of a finite double, from its bits: normal numbers carry a hidden bit. -/
def Binary.ofFloat (x : Float) : Binary :=
  let bits : Nat := x.toBits.toNat
  let field : Nat := bits / Nat.pow 2 52 % Nat.pow 2 11
  let fraction : Nat := bits % Nat.pow 2 52
  if field = 0 then ⟨fraction, -1074⟩ else ⟨Nat.pow 2 52 + fraction, (field : Int) - 1075⟩

/-- Whether the sign bit of a double is set; it is for `-0`. -/
def isNegative (x : Float) : Bool :=
  x.toBits.toNat / Nat.pow 2 63 = 1

/-- The real numbers that round to a magnitude, as bounds in units of `2 ^ (exponent - 2)`. Below
a power of two the neighbouring double is half as far away as above it. -/
def Binary.interval (b : Binary) : Nat × Nat :=
  let gapBelow := if b.significand = Nat.pow 2 52 ∧ b.exponent > -1074 then 1 else 2
  (4 * b.significand - gapBelow, 4 * b.significand + 2)

/-- Which of two equally near decimals is taken: the larger one, or the one whose last digit is
even. -/
inductive Tie where
  | up
  | even
  deriving Repr, DecidableEq

/-- The decimal `significand · 10 ^ exponent`. -/
structure Scaled where
  significand : Nat
  exponent : Int
  deriving Repr, DecidableEq

/-- The factor that turns quarter units of `b` into units of `10 ^ k`, as a numerator and a
denominator. -/
def Binary.gridFactor (b : Binary) (k : Int) : Nat × Nat :=
  let q := b.exponent - 2
  (Nat.pow 2 q.toNat * Nat.pow 10 (-k).toNat, Nat.pow 2 (-q).toNat * Nat.pow 10 k.toNat)

/-- The multiple of `10 ^ k` that stands for `b`, if one lies in the interval of `b`. -/
def Binary.onGrid? (tie : Tie) (b : Binary) (k : Int) : Option Nat :=
  let (num, den) := b.gridFactor k
  let (low, high) := b.interval
  let inside (a : Nat) : Bool :=
    if b.significand % 2 = 0 then low * num ≤ a * den && a * den ≤ high * num
    else low * num < a * den && a * den < high * num
  let exact := 4 * b.significand * num
  -- the magnitude lies between the grid points `a` and `a + 1`
  let a := exact / den
  match inside a, inside (a + 1) with
  | true, false => some a
  | false, true => some (a + 1)
  | false, false => none
  | true, true =>
    let twice := 2 * (exact % den)
    if twice < den then some a
    else if den < twice then some (a + 1)
    else
      match tie with
      | .up => some (a + 1)
      | .even => some (if a % 2 = 0 then a else a + 1)

/-- A power of ten above the magnitude of `b`. -/
def Binary.coarsestGrid (b : Binary) : Int :=
  let (num, den) := b.gridFactor 0
  let exact := 4 * b.significand * num
  if den ≤ exact then ((numeral (exact / den)).length : Int)
  else 1 - ((numeral (den / exact)).length : Int)

/-- The decimal with the fewest digits that rounds to the magnitude `b`, nearest first. Seventeen
digits always suffice, so twenty grids are enough. -/
def shortest (tie : Tie) (b : Binary) : Scaled :=
  let top := b.coarsestGrid
  let found := (List.range 20).findSome? fun (step : Nat) =>
    let k := top - (step : Int)
    (b.onGrid? tie k).map fun a => (⟨a, k⟩ : Scaled)
  found.getD ⟨0, 0⟩

end GrowthGrammar.Decimal
