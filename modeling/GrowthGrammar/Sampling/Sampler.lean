import GrowthGrammar.Decimal.Layout
import GrowthGrammar.Sampling.ChaCha
import GrowthGrammar.Sampling.Hash

/-!
# Weighted sampling

A sampler picks an index into a list of weights for a seed. It is a function, so one seed and one
list of weights always give the same pick. `seeded` is the sampler in use unless another is chosen:
random bits from the seed are scaled to the sum of the weights, and the pick is the number of partial
sums, the last one left out, that are at most the scaled value.
-/

set_option autoImplicit false

namespace GrowthGrammar

/-- Why nothing was picked. -/
inductive SampleError where
  | empty
  | invalidWeight (weight : Float)
  | nonPositiveTotal
  /-- The pick is not the index of an alternative. -/
  | outOfRange (index count : Nat)
  deriving DecidableEq

/-- The wording of a sample error. -/
def SampleError.message : SampleError → String
  | empty => "cannot sample from an empty weight list"
  | invalidWeight weight =>
    "weight " ++ Decimal.plainText weight ++ " is negative or not finite"
  | nonPositiveTotal => "weights sum to a non-positive total"
  | outOfRange index count =>
    "sampler picked index " ++ Decimal.text index ++ " out of " ++ Decimal.text count ++
      " alternatives"

/-- Whether a weight can be drawn by: finite and not negative. -/
def isWeight (weight : Float) : Bool :=
  weight.isFinite && !(weight < 0)

/-- Picks an index into a list of weights for a seed. -/
abbrev Sampler := String → List Float → Except SampleError Nat

namespace Sampler

/-- The sums of a weight with those after it, one by one, and the sum of all. -/
def partialSums (sum : Float) : List Float → List Float × Float
  | [] => ([], sum)
  | weight :: rest =>
    let (sums, total) := partialSums (sum + weight) rest
    (sum :: sums, total)

/-- The greatest fraction that `unitFraction` yields, `1 - 2⁻⁵²`. -/
def greatestFraction : Float :=
  Float.ofBits 0x3FEFFFFFFFFFFFFE

/-- A fraction from zero up to, but without, one: the upper 52 bits behind the point. -/
def unitFraction (bits : UInt64) : Float :=
  Float.ofBits ((bits >>> 12) ||| 0x3FF0000000000000) - 1

/-- The factor by which fractions are scaled to values below a positive total. It is the total,
unless rounding would lift the greatest scaled fraction to the total, which happens to totals so
small that their last place does not shrink with them; then it is the next smaller double. -/
def drawScale (total : Float) : Float :=
  if total * greatestFraction < total then total else Float.ofBits (total.toBits - 1)

/-- A value from zero up to, but without, a positive total. -/
def draw (seed : String) (total : Float) : Float :=
  unitFraction (ChaCha.firstBits (seedHash seed)) * drawScale total

/-- Weights that can be drawn by. Sums that overflow are left out. -/
structure IsDrawable (weights : List Float) : Prop where
  nonempty : weights ≠ []
  isWeight_of_mem : ∀ weight ∈ weights, isWeight weight = true
  pos : 0 < weights.foldl (· + ·) 0
  finite : (weights.foldl (· + ·) 0).isFinite = true

/-- The sampler whose picks depend on the seed alone. Finite weights may have a sum that overflows.
There is no uniform draw below such a total, so these weights are outside the domain of the sampler:
they are not `IsDrawable`, and the index that comes out for them stands for no pick. -/
def seeded : Sampler := fun seed weights =>
  match weights.find? fun weight => !isWeight weight with
  | some weight => .error (.invalidWeight weight)
  | none =>
    match weights with
    | [] => .error .empty
    | first :: rest =>
      let (sums, total) := partialSums first rest
      if total == 0 then .error .nonPositiveTotal
      else
        let value := draw seed total
        .ok (sums.countP fun sum => sum ≤ value)

end Sampler

end GrowthGrammar
