import GrowthGrammar.Expression.Tree
import GrowthGrammar.Table

/-!
# Defines

Named constants that parameter expressions refer to. A name must be an identifier, so every define
can be written in an expression. While one letter is replaced the parameter names of its production
are bound to the letter's parameters; such a `Scope` shadows the defines and is dropped afterwards.
-/

set_option autoImplicit false

namespace GrowthGrammar

/-- The table of named constants. -/
abbrev Defines := Table Float

/-- Why a define was refused. -/
inductive DefineError where
  | invalidName (name : String)
  deriving Repr, DecidableEq

/-- The wording of a define error. -/
def DefineError.message : DefineError → String
  | invalidName name => s!"define name '{name}' is not an identifier"

namespace Defines

/-- Sets a define; its name must be an identifier. -/
def define (defines : Defines) (name : String) (value : Float) : Except DefineError Defines :=
  if isIdentifier name then .ok (defines.insert name value) else .error (.invalidName name)

/-- Sets several defines in order, up to the first name that is no identifier. -/
def defineAll (defines : Defines) (pairs : List (String × Float)) : Except DefineError Defines :=
  pairs.foldlM (fun defines pair => defines.define pair.1 pair.2) defines

/-- The defines of a list of pairs. -/
def ofPairs (pairs : List (String × Float)) : Except DefineError Defines :=
  defineAll Table.empty pairs

end Defines

/-- A letter that does not carry as many parameters as its production names. -/
structure ArityMismatch where
  symbol : String
  expected : Nat
  found : Nat
  deriving Repr, DecidableEq

/-- Defines behind the parameters bound for one letter. -/
structure Scope where
  global : Defines
  bound : List (String × Float)

namespace Scope

/-- The defines alone. -/
def ofDefines (defines : Defines) : Scope := ⟨defines, []⟩

/-- The value of a name: a bound parameter, or else a define. Of two parameters of one name the
later counts. -/
def lookup (scope : Scope) (name : String) : Option Float :=
  match scope.bound.reverse.lookup name with
  | some value => some value
  | none => scope.global.get? name

/-- Binds parameter names to the parameters of a letter, in order. Without names nothing is bound,
whatever the letter carries; otherwise there must be as many parameters as names. -/
def bind (defines : Defines) (symbol : String) (names : List String) (values : List Float) :
    Except ArityMismatch Scope :=
  if names.isEmpty then .ok (ofDefines defines)
  else if names.length ≠ values.length then .error ⟨symbol, names.length, values.length⟩
  else .ok ⟨defines, names.zip values⟩

end Scope

end GrowthGrammar
