import GrowthGrammar.Decimal.Literal

/-!
# Tokens of parameter expressions

A parameter expression is made of decimal literals, names, the four operators and parentheses.
`lex` cuts a text into tokens, each with the byte span it was read from: at every position the
longest token is taken, and space, tab, line feed, form feed and carriage return between tokens are
skipped. It stops at the first character that starts no token.
-/

set_option autoImplicit false

namespace GrowthGrammar

/-- A token of a parameter expression. -/
inductive Token where
  | number (literal : Decimal.Literal)
  | name (text : String)
  | plus
  | minus
  | star
  | slash
  | openParen
  | closeParen
  deriving Repr, DecidableEq

namespace Token

/-- The characters of a token. -/
def text : Token → List Char
  | number literal => literal.text
  | name text => text.toList
  | plus => ['+']
  | minus => ['-']
  | star => ['*']
  | slash => ['/']
  | openParen => ['(']
  | closeParen => [')']

/-- How messages name a token. -/
def describe : Token → String
  | number literal => "Number(\"" ++ String.ofList literal.text ++ "\")"
  | name text => "Ident(\"" ++ text ++ "\")"
  | plus => "Plus"
  | minus => "Minus"
  | star => "Star"
  | slash => "Slash"
  | openParen => "OpenParen"
  | closeParen => "CloseParen"

end Token

/-- Whether a character can start a name. -/
def isNameStart (c : Char) : Bool :=
  c.isAlpha || c == '_'

/-- Whether a character can stand inside a name. -/
def isNameChar (c : Char) : Bool :=
  c.isAlphanum || c == '_'

/-- Names are an ASCII letter or underscore, then letters, digits and underscores. -/
def isIdentifier (name : String) : Bool :=
  match name.toList with
  | [] => false
  | c :: rest => isNameStart c && rest.all isNameChar

/-- The characters skipped between tokens. -/
def isSpacing (c : Char) : Bool :=
  c == ' ' || c == '\t' || c == '\n' || c == '\x0c' || c == '\r'

/-- The token that is a single character. -/
def punctuation? : Char → Option Token
  | '+' => some .plus
  | '-' => some .minus
  | '*' => some .star
  | '/' => some .slash
  | '(' => some .openParen
  | ')' => some .closeParen
  | _ => none

/-- The longest token at the start of a text, with the text after it. -/
def Token.first? (cs : List Char) : Option (Token × List Char) :=
  match Decimal.Literal.scan cs with
  | some (literal, rest) => some (.number literal, rest)
  | none =>
    match cs with
    | [] => none
    | c :: rest =>
      if isNameStart c then
        some (.name (String.ofList (c :: rest.takeWhile isNameChar)), rest.dropWhile isNameChar)
      else (punctuation? c).map fun token => (token, rest)

/-- The number of bytes of a text in UTF-8. -/
def byteSize : List Char → Nat
  | [] => 0
  | c :: rest => c.utf8Size + byteSize rest

/-- A token with the byte offsets of its first character and of the character after it. -/
structure Spanned where
  token : Token
  start : Nat
  stop : Nat
  deriving Repr, DecidableEq

/-- The tokens of a text up to its end, or up to the character at byte offset `fault`, which starts
no token. -/
structure Lexed where
  tokens : List Spanned
  fault : Option Nat
  deriving Repr, DecidableEq

theorem text_of_punctuation {c : Char} {token : Token} (h : punctuation? c = some token) :
    token.text = [c] := by
  unfold punctuation? at h
  split at h <;> cases h <;> rfl

/-- Taking the first token loses no character. -/
theorem Token.text_append_of_first {cs rest : List Char} {token : Token}
    (h : first? cs = some (token, rest)) : token.text ++ rest = cs := by
  unfold first? at h
  split at h
  · next literal rest' hscan =>
    obtain ⟨rfl, rfl⟩ := Prod.mk.inj (Option.some.inj h)
    exact Decimal.Literal.text_append_of_scan hscan
  · split at h
    · cases h
    · next c tail =>
      split at h
      · obtain ⟨rfl, rfl⟩ := Prod.mk.inj (Option.some.inj h)
        simp [text, List.takeWhile_append_dropWhile]
      · obtain ⟨token', htoken, heq⟩ := Option.map_eq_some_iff.1 h
        obtain ⟨rfl, rfl⟩ := Prod.mk.inj heq
        simp [text_of_punctuation htoken]

/-- A token has at least one character. -/
theorem Token.text_ne_nil_of_first {cs rest : List Char} {token : Token}
    (h : first? cs = some (token, rest)) : token.text ≠ [] := by
  unfold first? at h
  split at h
  · next literal rest' hscan =>
    obtain ⟨rfl, rfl⟩ := Prod.mk.inj (Option.some.inj h)
    exact Decimal.Literal.text_ne_nil_of_scan hscan
  · split at h
    · cases h
    · next c tail =>
      split at h
      · obtain ⟨rfl, rfl⟩ := Prod.mk.inj (Option.some.inj h)
        simp [text]
      · obtain ⟨token', htoken, heq⟩ := Option.map_eq_some_iff.1 h
        obtain ⟨rfl, rfl⟩ := Prod.mk.inj heq
        simp [text_of_punctuation htoken]

theorem Token.length_lt_of_first {cs rest : List Char} {token : Token}
    (h : first? cs = some (token, rest)) : rest.length < cs.length := by
  have hlen := congrArg List.length (text_append_of_first h)
  have hpos := List.length_pos_iff.2 (text_ne_nil_of_first h)
  rw [List.length_append] at hlen
  omega

/-- The tokens of a text that starts at byte `offset` of the whole text. -/
def lexFrom (offset : Nat) : List Char → Lexed
  | [] => ⟨[], none⟩
  | c :: rest =>
    if isSpacing c then lexFrom (offset + c.utf8Size) rest
    else
      match _h : Token.first? (c :: rest) with
      | none => ⟨[], some offset⟩
      | some (token, rest') =>
        let stop := offset + byteSize token.text
        let lexed := lexFrom stop rest'
        ⟨⟨token, offset, stop⟩ :: lexed.tokens, lexed.fault⟩
termination_by cs => cs.length
decreasing_by
  · simp
  · exact Token.length_lt_of_first _h

/-- The tokens of a text. -/
def lex (source : String) : Lexed :=
  lexFrom 0 source.toList

end GrowthGrammar
