import GrowthGrammar.Expression.Reading
import GrowthGrammar.Phrase.Item
import GrowthGrammar.Word

/-!
# Normalising sources

Every source is turned into a word before it is stored or spliced. A phrase is tokenised: it is
scanned, and then the parameters of each item are evaluated in order. Letters are taken as they are,
but each symbol must be known.
-/

set_option autoImplicit false

namespace GrowthGrammar

namespace Phrase

/-- The values of the parameters of a symbol. A group without characters has no parameters. -/
def evaluateParams (lookup : String → Option Float) (symbol : String) (raw : List Char) :
    Except PhraseError (List Float) :=
  if raw.isEmpty then .ok []
  else
    (splitParams 0 raw).mapM fun item =>
      let text := String.ofList item
      (Expression.evaluate lookup text).mapError (.parameter symbol text)

/-- The letter of an item. -/
def Item.letter (lookup : String → Option Float) (item : Item) : Except PhraseError Letter := do
  let params ←
    match item.raw with
    | some raw => evaluateParams lookup item.symbol raw.toList
    | none => .ok []
  return ⟨item.symbol, params⟩

/-- The word that a phrase denotes under a lookup of names. -/
def tokenize (vocabulary : Vocabulary) (lookup : String → Option Float) (phrase : String) :
    Except PhraseError Word := do
  let items ← scan vocabulary phrase
  items.mapM (Item.letter lookup)

end Phrase

/-- Every symbol must be known; the error names the first one that is not, and the text of them
all. -/
def Vocabulary.ensureKnown (vocabulary : Vocabulary) (symbols : List String) :
    Except PhraseError Unit :=
  match symbols.find? fun symbol => !vocabulary.knows symbol with
  | some symbol => .error (.unknownSymbol (String.join symbols) symbol)
  | none => .ok ()

/-- The word itself, if all its symbols are known. -/
def Word.checked (vocabulary : Vocabulary) (word : Word) : Except PhraseError Word := do
  vocabulary.ensureKnown (word.map Letter.symbol)
  return word

/-- The word that a source stands for. -/
def Source.normalize (vocabulary : Vocabulary) (lookup : String → Option Float) :
    Source → Except PhraseError Word
  | phrase text => Phrase.tokenize vocabulary lookup text
  | word letters => Word.checked vocabulary letters
  | letter l => Word.checked vocabulary [l]

end GrowthGrammar
