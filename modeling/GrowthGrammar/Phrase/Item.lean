import GrowthGrammar.Alphabet
import GrowthGrammar.Expression.Tree
import GrowthGrammar.Phrase.Group

/-!
# Scanning phrases

A phrase is a text of symbols, each with an optional parameter group. It is read without its blanks:
characters are gathered into a candidate until the candidate is a known symbol, so of two symbols of
which one begins the other the shorter is always found. A parameter group belongs to the symbol
right before it. Nothing is skipped: a group without a symbol or without an end, and characters that
never become a symbol, are errors.
-/

set_option autoImplicit false

namespace GrowthGrammar

/-- Why a phrase is not a word. -/
inductive PhraseError where
  /-- The marker at this index of the phrase without blanks belongs to no complete group. -/
  | unbalancedParams (phrase : String) (position : Nat)
  | unknownSymbol (phrase : String) (candidate : String)
  /-- A parameter of a symbol has no value. -/
  | parameter (symbol : String) (raw : String) (cause : ExpressionError)
  deriving Repr, DecidableEq

/-- The wording of a phrase error. -/
def PhraseError.message : PhraseError → String
  | unbalancedParams phrase position =>
    "unbalanced parametric group starting at " ++ Decimal.text position ++ " in '" ++ phrase ++ "'"
  | unknownSymbol phrase candidate => s!"'{candidate}' in '{phrase}' is not a known symbol"
  | parameter symbol raw cause => s!"parameter '{raw}' of '{symbol}': " ++ cause.message

namespace Phrase

/-- A symbol of a phrase, with the inside of its parameter group if it has one. -/
structure Item where
  symbol : String
  raw : Option String
  deriving Repr, DecidableEq

/-- Why a text cannot be cut into items: a marker out of place, or a candidate that is no symbol. -/
inductive Fault where
  | marker (position : Nat)
  | candidate (text : List Char)
  deriving Repr, DecidableEq

/-- Cuts a text into items. `position` is the index of its first character, and `candidate` holds
the characters right before it that are not yet a symbol. -/
def scanFrom (knows : String → Bool) (position : Nat) (candidate : List Char) :
    List Char → Except Fault (List Item)
  | [] => if candidate.isEmpty then .ok [] else .error (.candidate candidate)
  | c :: rest =>
    if candidate.isEmpty && isMarker c then .error (.marker position)
    else
      let grown := candidate ++ [c]
      let symbol := String.ofList grown
      match rest with
      | '(' :: group =>
        match _h : takeGroup 0 group with
        | none => .error (.marker (position + 1))
        | some (inside, after) =>
          -- a group is closed before its symbol is looked up, so a missing end is found first
          if knows symbol then do
            let items ← scanFrom knows (position + inside.length + 3) [] after
            return ⟨symbol, some (String.ofList inside)⟩ :: items
          else .error (.candidate grown)
      | rest =>
        if knows symbol then do
          let items ← scanFrom knows (position + 1) [] rest
          return ⟨symbol, none⟩ :: items
        else scanFrom knows (position + 1) grown rest
termination_by cs => cs.length
decreasing_by
  · have := length_lt_of_takeGroup _h
    simp only [List.length_cons]
    omega
  · simp
  · simp

/-- The characters of a phrase that are read. -/
def chars (phrase : String) : List Char :=
  Text.compact phrase.toList

/-- The items of a phrase, parameters not yet evaluated. -/
def scan (vocabulary : Vocabulary) (phrase : String) : Except PhraseError (List Item) :=
  let cs := chars phrase
  (scanFrom vocabulary.knows 0 [] cs).mapError fun
    | .marker position => .unbalancedParams (String.ofList cs) position
    | .candidate text => .unknownSymbol (String.ofList cs) (String.ofList text)

/-- The symbols of a phrase, parameters left out. -/
def symbols (vocabulary : Vocabulary) (phrase : String) : Except PhraseError (List String) := do
  let items ← scan vocabulary phrase
  return items.map Item.symbol

end Phrase

end GrowthGrammar
