import GrowthGrammar.Decimal.Layout

/-!
# Words

The state of a growth grammar at one point in time is a word: a list of letters, each a symbol with
numeric parameters. A `Source` is anything that stands for a word: a phrase still to be read, or
letters given as they are.
-/

set_option autoImplicit false

namespace GrowthGrammar

/-- One occurrence of a symbol, with its parameters. -/
structure Letter where
  symbol : String
  params : List Float := []
  deriving DecidableEq

/-- Letters in order. -/
abbrev Word := List Letter

/-- The letter in phrase syntax, for instance `F(1,2.5)`; without parameters the symbol alone. -/
def Letter.text (letter : Letter) : String :=
  if letter.params.isEmpty then letter.symbol
  else letter.symbol ++ "(" ++ ",".intercalate (letter.params.map Decimal.plainText) ++ ")"

/-- The word in phrase syntax. -/
def Word.text (word : Word) : String :=
  String.join (word.map Letter.text)

/-- The symbols of the word in a row, parameters left out. -/
def Word.symbolText (word : Word) : String :=
  String.join (word.map Letter.symbol)

/-- What stands for a word. -/
inductive Source where
  /-- Text to be read against the alphabets. -/
  | phrase (text : String)
  /-- Letters taken as they are, once their symbols are known. -/
  | word (word : Word)
  | letter (letter : Letter)
  deriving DecidableEq

end GrowthGrammar
