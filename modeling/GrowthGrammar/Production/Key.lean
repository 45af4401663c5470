import GrowthGrammar.Expression.Token
import GrowthGrammar.Text.Blank

/-!
# Production keys

A production is registered under a key in classic notation:

    A               a symbol
    F(len,w)        a symbol that names the parameters len and w
    B<A>C           a symbol between a context before and a context after it
    B<A  and  A>C   a context on one side

`Key.parse` takes a key apart and `Key.text` writes one. Blanks in a key have no meaning.
-/

set_option autoImplicit false

namespace GrowthGrammar

/-- A key taken apart. The contexts are phrases still to be read. -/
structure Key where
  symbol : String
  before : Option String
  after : Option String
  params : List String
  deriving Repr, DecidableEq

/-- What is wrong with a key. -/
inductive KeyFault where
  | empty
  /-- A context mark with nothing on one of its sides, or one mark too many. -/
  | misplacedMark
  | unbalancedParams
  | badParam (name : String)
  deriving Repr, DecidableEq

/-- The wording of a key fault. -/
def KeyFault.message : KeyFault → String
  | empty => "empty key"
  | misplacedMark => "misplaced context marker"
  | unbalancedParams => "unbalanced parameter list"
  | badParam name => s!"'{name}' is not a parameter name"

namespace Key

/-- Splits a text at the last `mark` that has text on both of its sides. -/
def splitLast? (mark : Char) : List Char → Option (List Char × List Char)
  | [] => none
  | c :: rest =>
    match splitLast? mark rest with
    | some (left, right) => some (c :: left, right)
    | none =>
      match rest with
      | d :: e :: right => if d = mark then some ([c], e :: right) else none
      | _ => none

/-- The pieces between commas; there is one more of them than there are commas. -/
def splitCommas : List Char → List (List Char)
  | [] => [[]]
  | c :: rest =>
    if c = ',' then [] :: splitCommas rest
    else
      match splitCommas rest with
      | [] => [[c]]
      | first :: pieces => (c :: first) :: pieces

/-- Whether a text has a parenthesis. -/
def hasParen (cs : List Char) : Bool :=
  cs.any fun c => c == '(' || c == ')'

/-- A symbol with a parameter list: something before the only opening parenthesis, and the only
closing one at the very end. The result is the symbol and the text of the list. -/
def splitParams? (cs : List Char) : Option (List Char × List Char) :=
  let symbol := cs.takeWhile (· != '(')
  match cs.dropWhile (· != '(') with
  | '(' :: rest =>
    match rest.reverse with
    | ')' :: names =>
      if symbol.isEmpty || hasParen symbol || hasParen names then none
      else some (symbol, names.reverse)
    | _ => none
  | _ => none

/-- The names of a parameter list; an empty list has none. -/
def paramNames (list : List Char) : Except KeyFault (List String) :=
  if list.isEmpty then .ok []
  else
    (splitCommas list).mapM fun piece =>
      let name := String.ofList piece
      if isIdentifier name then .ok name else .error (.badParam name)

/-- A symbol and its parameter names, contexts taken away. -/
def parseHead (cs : List Char) : Except KeyFault (String × List String) :=
  if hasParen cs then
    match splitParams? cs with
    | none => .error .unbalancedParams
    | some (symbol, list) => do
      let names ← paramNames list
      return (String.ofList symbol, names)
  else .ok (String.ofList cs, [])

/-- Takes a key apart. The context before is what stands left of the last `<`, and the context after
is what stands right of the last `>` behind that. -/
def parse (key : String) : Except KeyFault Key := do
  let compact := Text.compact key.toList
  if compact.isEmpty then .error .empty
  else
    let (before, rest) :=
      match splitLast? '<' compact with
      | some (left, right) => (some (String.ofList left), right)
      | none => (none, compact)
    let (after, head) :=
      match splitLast? '>' rest with
      | some (left, right) => (some (String.ofList right), left)
      | none => (none, rest)
    if head.any fun c => c == '<' || c == '>' then .error .misplacedMark
    else
      let (symbol, params) ← parseHead head
      return ⟨symbol, before, after, params⟩

/-- The key in classic notation. Without parameters no list is written. -/
def text (key : Key) : List Char :=
  (match key.before with | some phrase => phrase.toList ++ ['<'] | none => []) ++
    key.symbol.toList ++
    (if key.params.isEmpty then []
      else '(' :: ([','].intercalate (key.params.map String.toList) ++ [')'])) ++
    (match key.after with | some phrase => '>' :: phrase.toList | none => [])

end Key

end GrowthGrammar
