import GrowthGrammar.Expression.Tree

/-!
# Reading expressions

The grammar of parameter expressions, with both levels of operators associating to the left:

    sum     = product (("+" | "-") product)*
    product = unary (("*" | "/") unary)*
    unary   = ("+" | "-")* atom
    atom    = number | name | "(" sum ")"

A text is read token by token. A `Reading` is what the tokens so far have built: for every open
parenthesis, and for the whole text, a `Level` with the operands that still wait for their right
side; and either the next token must begin an operand, or an operand has just ended. A token that
fits neither is the one that an error names, and every reading that was reached can still be
completed, so the error names the first token that cannot continue the text.

The grammar may also be carried out as it is written, with ordered choices that go back when an
alternative fails, greedy repetitions, and the farthest failure as the error. This comes to the same
for every text (`Expression.ofTokens_eq_toExcept`).
-/

set_option autoImplicit false

namespace GrowthGrammar

/-- The left operands that wait inside one pair of parentheses, or at the top: the sum before a
`+` or `-`, the product before a `*` or `/`, and the minus signs before the next operand. -/
structure Level where
  sum : Option (Expression × Operator) := none
  product : Option (Expression × Operator) := none
  negations : Nat := 0
  deriving DecidableEq

namespace Level

/-- The expression under as many minus signs. -/
def negated : Nat → Expression → Expression
  | 0, e => e
  | n + 1, e => .negate (negated n e)

/-- Joins a waiting left operand with its right side. -/
def join (waiting : Option (Expression × Operator)) (right : Expression) : Expression :=
  match waiting with
  | some (left, operator) => .binary operator left right
  | none => right

/-- The product that an operand completes. -/
def closeProduct (level : Level) (operand : Expression) : Expression :=
  join level.product operand

/-- The sum that an operand completes. -/
def closeSum (level : Level) (operand : Expression) : Expression :=
  join level.sum (level.closeProduct operand)

end Level

/-- What the tokens so far have built. The levels around the innermost one are listed from the
inside out. -/
inductive Reading where
  /-- The next token must begin an operand. -/
  | operand (level : Level) (outer : List Level)
  /-- An operand, signs included, has just ended. -/
  | ended (operand : Expression) (level : Level) (outer : List Level)
  deriving DecidableEq

namespace Reading

/-- Nothing has been read. -/
def start : Reading := .operand {} []

/-- An operand has been read behind the signs of its level. -/
def finish (atom : Expression) (level : Level) (outer : List Level) : Reading :=
  .ended (Level.negated level.negations atom) { level with negations := 0 } outer

/-- The reading after one more token, if the token can continue the text. -/
def step : Reading → Token → Option Reading
  | .operand level outer, token =>
    match token with
    | .number literal => some (finish (.number literal.toFloat) level outer)
    | .name text => some (finish (.name text) level outer)
    | .plus => some (.operand level outer)
    | .minus => some (.operand { level with negations := level.negations + 1 } outer)
    | .openParen => some (.operand {} (level :: outer))
    | .star | .slash | .closeParen => none
  | .ended e level outer, token =>
    match token with
    | .plus => some (.operand { sum := some (level.closeSum e, .add) } outer)
    | .minus => some (.operand { sum := some (level.closeSum e, .subtract) } outer)
    | .star =>
      some (.operand { level with product := some (level.closeProduct e, .multiply) } outer)
    | .slash =>
      some (.operand { level with product := some (level.closeProduct e, .divide) } outer)
    | .closeParen =>
      match outer with
      | [] => none
      | enclosing :: outer => some (finish (level.closeSum e) enclosing outer)
    | .number _ | .name _ | .openParen => none

/-- The expression, if the tokens so far are a complete one. -/
def complete? : Reading → Option Expression
  | .ended e level [] => some (level.closeSum e)
  | _ => none

/-- Reads the remaining tokens. The error is the first token that cannot continue the text, or
none when the text ends too early. -/
def run : Reading → List Token → Except (Option Token) Expression
  | reading, [] =>
    match reading.complete? with
    | some e => .ok e
    | none => .error none
  | reading, token :: rest =>
    match reading.step token with
    | some next => next.run rest
    | none => .error (some token)

end Reading

namespace Expression

/-- The expression that a list of tokens is. -/
def ofTokens (tokens : List Token) : Except (Option Token) Expression :=
  Reading.start.run tokens

/-- The expression that a text is. A character that starts no token is reported before any
token out of place. -/
def parse (source : String) : Except ExpressionError Expression :=
  let lexed := lex source
  match lexed.fault with
  | some position => .error (.lexical source position)
  | none => (ofTokens (lexed.tokens.map Spanned.token)).mapError (.unexpected source)

/-- The value of a text. Only the value of the whole expression has to be finite. -/
def evaluate (lookup : String → Option Float) (source : String) :
    Except ExpressionError Float := do
  let tree ← parse source
  let value ← tree.eval lookup
  if value.isFinite then .ok value else .error (.nonFinite source)

section Evaluation

variable {lookup : String → Option Float} {source : String} {tree : Expression} {value : Float}
  {cause : ExpressionError}

theorem evaluate_of_eval_ok (hparse : parse source = .ok tree)
    (heval : tree.eval lookup = .ok value) :
    evaluate lookup source =
      if value.isFinite then .ok value else .error (.nonFinite source) := by
  simp only [evaluate, hparse, heval, bind, Except.bind]

theorem evaluate_of_eval_error (hparse : parse source = .ok tree)
    (heval : tree.eval lookup = .error cause) : evaluate lookup source = .error cause := by
  simp only [evaluate, hparse, heval, bind, Except.bind]

end Evaluation

end Expression

end GrowthGrammar
