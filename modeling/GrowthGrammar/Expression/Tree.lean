import GrowthGrammar.Expression.Token

/-!
# Expression trees

The tree of a parameter expression and its value under a lookup of names. Both operands of an
operator are evaluated, the left one first, so the first name without a value is the one reported.
-/

set_option autoImplicit false

namespace GrowthGrammar

/-- The four operators. -/
inductive Operator where
  | add
  | subtract
  | multiply
  | divide
  deriving Repr, DecidableEq

/-- The operation on doubles. -/
def Operator.apply : Operator → Float → Float → Float
  | add, x, y => x + y
  | subtract, x, y => x - y
  | multiply, x, y => x * y
  | divide, x, y => x / y

/-- A parameter expression. -/
inductive Expression where
  | number (value : Float)
  | name (text : String)
  | negate (operand : Expression)
  | binary (operator : Operator) (left right : Expression)
  deriving DecidableEq

/-- Why an expression has no value. -/
inductive ExpressionError where
  /-- The character at this byte offset starts no token. -/
  | lexical (input : String) (position : Nat)
  /-- The first token that cannot continue an expression; none when the input ends too early. -/
  | unexpected (input : String) (found : Option Token)
  | unknownDefine (name : String)
  | nonFinite (input : String)
  deriving Repr, DecidableEq

/-- The wording of an expression error. -/
def ExpressionError.message : ExpressionError → String
  | lexical input position =>
    "unexpected character at " ++ Decimal.text position ++ " in '" ++ input ++ "'"
  | unexpected input found =>
    let reason :=
      match found with
      | some token => "unexpected " ++ token.describe
      | none => "unexpected end of expression"
    s!"invalid expression '{input}': {reason}"
  | unknownDefine name => s!"unknown define '{name}'"
  | nonFinite input => s!"expression '{input}' does not evaluate to a finite number"

/-- The value of an expression under a lookup of names. -/
def Expression.eval (lookup : String → Option Float) : Expression → Except ExpressionError Float
  | number value => .ok value
  | name text =>
    match lookup text with
    | some value => .ok value
    | none => .error (.unknownDefine text)
  | negate operand => do
    let value ← operand.eval lookup
    return -value
  | binary operator left right => do
    let x ← left.eval lookup
    let y ← right.eval lookup
    return operator.apply x y

end GrowthGrammar
