import GrowthGrammar.Proofs.Decimal.Scanning
import GrowthGrammar.Proofs.Expression.Name
import Mathlib.Computability.RegularExpressions

/-!
# Patterns of tokens

Every kind of token has a regular expression for its texts. The token at the start of a text is of
the pattern of its kind (`Token.matches_of_first?`), and it is the longest one that any pattern allows
there (`Token.exists_first?_append`).
-/

set_option autoImplicit false

namespace GrowthGrammar

open Decimal (Exponent Literal)

/-! ## Regular expressions -/

namespace Pattern

/-- Any one of some characters. -/
def oneOf (cs : List Char) : RegularExpression Char :=
  (cs.map .char).sum

/-- A part that may be missing. -/
def optional (pattern : RegularExpression Char) : RegularExpression Char :=
  1 + pattern

/-- One repetition at least. -/
def oneOrMore (pattern : RegularExpression Char) : RegularExpression Char :=
  pattern * pattern.star

/-- The digits. -/
def digitChars : List Char := "0123456789".toList

/-- The letters, and the underscore. -/
def letterChars : List Char := "ABCDEFGHIJKLMNOPQRSTUVWXYZabcdefghijklmnopqrstuvwxyz_".toList

/-- A point and the digits behind it, if there are any. -/
def fraction : RegularExpression Char :=
  .char '.' * (oneOf digitChars).star

/-- An exponent part. -/
def exponent : RegularExpression Char :=
  oneOf ['e', 'E'] * optional (oneOf ['+', '-']) * oneOrMore (oneOf digitChars)

/-- A decimal literal, with a digit before its point or behind it. -/
def number : RegularExpression Char :=
  oneOrMore (oneOf digitChars) * optional fraction * optional exponent +
    .char '.' * oneOrMore (oneOf digitChars) * optional exponent

/-- A name. -/
def name : RegularExpression Char :=
  oneOf letterChars * (oneOf (letterChars ++ digitChars)).star

section Membership

variable {cs xs : List Char} {pattern other : RegularExpression Char}

theorem mem_mul : xs ∈ (pattern * other).matches' ↔
    ∃ front ∈ pattern.matches', ∃ back ∈ other.matches', front ++ back = xs :=
  Language.mem_mul

theorem mem_add : xs ∈ (pattern + other).matches' ↔ xs ∈ pattern.matches' ∨ xs ∈ other.matches' :=
  Iff.rfl

theorem mem_char {c : Char} : xs ∈ (RegularExpression.char c).matches' ↔ xs = [c] :=
  Iff.rfl

theorem mem_optional : xs ∈ (optional pattern).matches' ↔ xs = [] ∨ xs ∈ pattern.matches' :=
  Iff.rfl

theorem mem_oneOf : xs ∈ (oneOf cs).matches' ↔ ∃ c ∈ cs, xs = [c] := by
  induction cs with
  | nil =>
      constructor
      · intro h
        cases h
      · rintro ⟨c, hc, -⟩
        cases hc
  | cons c cs ih =>
      have hsum : oneOf (c :: cs) = .char c + oneOf cs := List.sum_cons
      rw [hsum, mem_add, mem_char, ih]
      simp

theorem mem_star_oneOf : xs ∈ (oneOf cs).star.matches' ↔ ∀ c ∈ xs, c ∈ cs := by
  rw [RegularExpression.matches'_star, Language.mem_kstar]
  constructor
  · rintro ⟨parts, rfl, hparts⟩ c hc
    obtain ⟨part, hpart, hc⟩ := List.mem_flatten.1 hc
    obtain ⟨d, hd, rfl⟩ := mem_oneOf.1 (hparts part hpart)
    obtain rfl := List.mem_singleton.1 hc
    exact hd
  · intro h
    refine ⟨xs.map fun c => [c], ?_, ?_⟩
    · rw [← List.flatMap_def, List.flatMap_singleton']
    rintro part hpart
    obtain ⟨c, hc, rfl⟩ := List.mem_map.1 hpart
    exact mem_oneOf.2 ⟨c, h c hc, rfl⟩

theorem mem_oneOf_mul_star {ds : List Char} :
    xs ∈ (oneOf cs * (oneOf ds).star).matches' ↔
      ∃ c rest, xs = c :: rest ∧ c ∈ cs ∧ ∀ d ∈ rest, d ∈ ds := by
  rw [mem_mul]
  constructor
  · rintro ⟨front, hfront, rest, hrest, rfl⟩
    obtain ⟨c, hc, rfl⟩ := mem_oneOf.1 hfront
    exact ⟨c, rest, rfl, hc, mem_star_oneOf.1 hrest⟩
  · rintro ⟨c, rest, rfl, hc, hrest⟩
    exact ⟨[c], mem_oneOf.2 ⟨c, hc, rfl⟩, rest, mem_star_oneOf.2 hrest, rfl⟩

end Membership

/-! ## Classes of characters -/

/-- A class of ASCII characters is the list of its members. -/
theorem mem_iff_of_ascii {chars : List Char} {isMember : Char → Bool}
    (hmembers : ∀ n < 128, (Char.ofNat n ∈ chars ↔ isMember (Char.ofNat n) = true))
    (hchars : chars.all (fun c => c.toNat < 128) = true)
    (hascii : ∀ c, isMember c = true → c.toNat < 128) (c : Char) :
    c ∈ chars ↔ isMember c = true := by
  by_cases hc : c.toNat < 128
  · have hiff := hmembers c.toNat hc
    rwa [Char.ofNat_toNat] at hiff
  · refine iff_of_false (fun hmem => hc ?_) fun hmember => hc (hascii c hmember)
    exact of_decide_eq_true (List.all_eq_true.1 hchars c hmem)

theorem mem_letterChars {c : Char} : c ∈ letterChars ↔ isNameStart c = true := by
  refine mem_iff_of_ascii (by decide +kernel) (by decide) (fun d hd => ?_) c
  rw [isNameStart, Bool.or_eq_true, isAlpha_iff, beq_iff_eq] at hd
  rcases hd with hd | rfl
  · omega
  · decide

theorem mem_digitChars {c : Char} : c ∈ digitChars ↔ c.isDigit = true := by
  refine mem_iff_of_ascii (by decide +kernel) (by decide) (fun d hd => ?_) c
  rw [isDigit_iff] at hd
  omega

theorem mem_nameChars {c : Char} : c ∈ letterChars ++ digitChars ↔ isNameChar c = true := by
  rw [List.mem_append, mem_letterChars, mem_digitChars, isNameStart, isNameChar, Char.isAlphanum]
  simp only [Bool.or_eq_true]
  exact or_right_comm

theorem mem_digits {xs : List Char} : xs ∈ (oneOrMore (oneOf digitChars)).matches' ↔
    xs ≠ [] ∧ ∀ c ∈ xs, c.isDigit = true := by
  rw [oneOrMore, mem_oneOf_mul_star]
  simp only [mem_digitChars]
  constructor
  · rintro ⟨c, rest, rfl, hc, hrest⟩
    exact ⟨List.cons_ne_nil _ _, List.forall_mem_cons.2 ⟨hc, hrest⟩⟩
  · rintro ⟨hne, hall⟩
    obtain ⟨c, rest, rfl⟩ := List.exists_cons_of_ne_nil hne
    obtain ⟨hc, hrest⟩ := List.forall_mem_cons.1 hall
    exact ⟨c, rest, rfl, hc, hrest⟩

/-! ## Literals and names -/

theorem mem_fraction {xs : List Char} : xs ∈ fraction.matches' ↔
    ∃ digits, xs = '.' :: digits ∧ ∀ c ∈ digits, c.isDigit = true := by
  rw [fraction, mem_mul]
  constructor
  · rintro ⟨point, rfl, digits, hdigits, rfl⟩
    exact ⟨digits, rfl, fun c hc => mem_digitChars.1 (mem_star_oneOf.1 hdigits c hc)⟩
  · rintro ⟨digits, rfl, hdigits⟩
    exact ⟨['.'], rfl, digits, mem_star_oneOf.2 fun c hc => mem_digitChars.2 (hdigits c hc), rfl⟩

theorem mem_exponent {xs : List Char} :
    xs ∈ exponent.matches' ↔ ∃ e : Exponent, e.IsWritten ∧ e.text = xs := by
  rw [exponent, mem_mul]
  constructor
  · rintro ⟨front, hfront, digits, hdigits, rfl⟩
    obtain ⟨mark, hmark, sign, hsign, rfl⟩ := mem_mul.1 hfront
    obtain ⟨c, hc, rfl⟩ := mem_oneOf.1 hmark
    obtain ⟨hne, hall⟩ := mem_digits.1 hdigits
    have hmark : c = 'e' ∨ c = 'E' := by simpa using hc
    rcases mem_optional.1 hsign with rfl | hsign
    · exact ⟨⟨c, none, digits⟩, ⟨hmark, .inl rfl, hne, hall⟩, rfl⟩
    · obtain ⟨d, hd, rfl⟩ := mem_oneOf.1 hsign
      have hsign : d = '+' ∨ d = '-' := by simpa using hd
      refine ⟨⟨c, some d, digits⟩, ⟨hmark, .inr ?_, hne, hall⟩, rfl⟩
      exact hsign.imp (congrArg some) (congrArg some)
  · rintro ⟨⟨mark, sign, digits⟩, ⟨hmark, hsign, hne, hall⟩, rfl⟩
    dsimp only at hmark hsign hne hall
    refine ⟨mark :: sign.toList, mem_mul.2 ⟨[mark], ?_, sign.toList, ?_, rfl⟩, digits,
      mem_digits.2 ⟨hne, hall⟩, rfl⟩
    · exact mem_oneOf.2 ⟨mark, by simpa using hmark, rfl⟩
    · rw [mem_optional]
      rcases hsign with rfl | rfl | rfl
      · exact .inl rfl
      · exact .inr (mem_oneOf.2 ⟨'+', by simp, rfl⟩)
      · exact .inr (mem_oneOf.2 ⟨'-', by simp, rfl⟩)

theorem mem_optional_exponent {xs : List Char} : xs ∈ (optional exponent).matches' ↔
    ∃ exponent : Option Exponent, (∀ e, exponent = some e → e.IsWritten) ∧
      Exponent.optionText exponent = xs := by
  rw [mem_optional, mem_exponent]
  constructor
  · rintro (rfl | ⟨e, he, rfl⟩)
    · exact ⟨none, fun e he => (nomatch he), rfl⟩
    · refine ⟨some e, fun e' he' => ?_, rfl⟩
      obtain rfl := Option.some.inj he'
      exact he
  · rintro ⟨exponent, hexponent, rfl⟩
    cases exponent with
    | none => exact .inl rfl
    | some e => exact .inr ⟨e, hexponent e rfl, rfl⟩

/-- Literals with a digit before the point, or with no point. -/
theorem mem_whole {xs : List Char} :
    xs ∈ (oneOrMore (oneOf digitChars) * optional fraction * optional exponent).matches' ↔
      ∃ l : Literal, l.IsWellFormed ∧ l.whole ≠ [] ∧ l.text = xs := by
  rw [mem_mul]
  constructor
  · rintro ⟨front, hfront, back, hback, rfl⟩
    obtain ⟨whole, hwhole, point, hpoint, rfl⟩ := mem_mul.1 hfront
    obtain ⟨exponent, hexponent, rfl⟩ := mem_optional_exponent.1 hback
    obtain ⟨hne, hall⟩ := mem_digits.1 hwhole
    rcases mem_optional.1 hpoint with rfl | hpoint
    · refine ⟨⟨whole, none, exponent⟩, ⟨.inl hne, hall, List.forall_mem_nil _, hexponent⟩, hne, ?_⟩
      rw [Literal.text_of_none, List.append_nil]
    · obtain ⟨digits, rfl, hdigits⟩ := mem_fraction.1 hpoint
      refine ⟨⟨whole, some digits, exponent⟩, ⟨.inl hne, hall, hdigits, hexponent⟩, hne, ?_⟩
      rw [Literal.text_of_some, List.append_assoc, List.cons_append]
  · rintro ⟨⟨whole, fraction, exponent⟩, ⟨-, hwhole, hfraction, hexponent⟩, hne, rfl⟩
    have hback := mem_optional_exponent.2 ⟨exponent, hexponent, rfl⟩
    have hfront := mem_digits.2 ⟨hne, hwhole⟩
    cases fraction with
    | none =>
        rw [Literal.text_of_none]
        refine ⟨whole, mem_mul.2 ⟨whole, hfront, [], .inl rfl, ?_⟩, _, hback, rfl⟩
        exact List.append_nil whole
    | some digits =>
        have hpoint : '.' :: digits ∈ (optional Pattern.fraction).matches' :=
          .inr (mem_fraction.2 ⟨digits, rfl, hfraction⟩)
        rw [Literal.text_of_some]
        refine ⟨whole ++ '.' :: digits, mem_mul.2 ⟨whole, hfront, _, hpoint, rfl⟩, _, hback, ?_⟩
        rw [List.append_assoc, List.cons_append]

/-- Literals that begin with the point. -/
theorem mem_pointed {xs : List Char} :
    xs ∈ (.char '.' * oneOrMore (oneOf digitChars) * optional exponent).matches' ↔
      ∃ l : Literal, l.IsWellFormed ∧ l.whole = [] ∧ l.text = xs := by
  rw [mem_mul]
  constructor
  · rintro ⟨front, hfront, back, hback, rfl⟩
    obtain ⟨point, rfl, digits, hdigits, rfl⟩ := mem_mul.1 hfront
    obtain ⟨exponent, hexponent, rfl⟩ := mem_optional_exponent.1 hback
    obtain ⟨hne, hall⟩ := mem_digits.1 hdigits
    refine ⟨⟨[], some digits, exponent⟩, ⟨.inr hne, List.forall_mem_nil _, hall, hexponent⟩, rfl, ?_⟩
    rw [Literal.text_of_some, List.nil_append]
    rfl
  · rintro ⟨⟨whole, fraction, exponent⟩, ⟨hdigit, -, hfraction, hexponent⟩, hempty, rfl⟩
    have hback := mem_optional_exponent.2 ⟨exponent, hexponent, rfl⟩
    dsimp only at hempty hdigit
    subst hempty
    have hne : fraction.getD [] ≠ [] := hdigit.resolve_left (not_not.2 rfl)
    cases fraction with
    | none => exact absurd rfl hne
    | some digits =>
        rw [Literal.text_of_some]
        exact ⟨'.' :: digits,
          mem_mul.2 ⟨['.'], rfl, digits, mem_digits.2 ⟨hne, hfraction⟩, rfl⟩, _, hback, rfl⟩

theorem mem_number {xs : List Char} :
    xs ∈ number.matches' ↔ ∃ l : Literal, l.IsWellFormed ∧ l.text = xs := by
  rw [number, mem_add, mem_whole, mem_pointed]
  constructor
  · rintro (⟨l, hform, -, htext⟩ | ⟨l, hform, -, htext⟩)
    · exact ⟨l, hform, htext⟩
    · exact ⟨l, hform, htext⟩
  · rintro ⟨l, hform, htext⟩
    by_cases hempty : l.whole = []
    · exact .inr ⟨l, hform, hempty, htext⟩
    · exact .inl ⟨l, hform, hempty, htext⟩

theorem mem_name {xs : List Char} :
    xs ∈ name.matches' ↔ isIdentifier (String.ofList xs) = true := by
  rw [name, mem_oneOf_mul_star, isIdentifier_iff, String.toList_ofList]
  simp only [mem_letterChars, mem_nameChars]

end Pattern

/-! ## Kinds of tokens -/

namespace Token

/-- What a token is, apart from its text. -/
inductive Kind where
  | number
  | name
  | plus
  | minus
  | star
  | slash
  | openParen
  | closeParen
  deriving Repr, DecidableEq

/-- The pattern of the texts of a kind. -/
def Kind.pattern : Kind → RegularExpression Char
  | number => Pattern.number
  | name => Pattern.name
  | plus => .char '+'
  | minus => .char '-'
  | star => .char '*'
  | slash => .char '/'
  | openParen => .char '('
  | closeParen => .char ')'

def kind : Token → Kind
  | .number _ => .number
  | .name _ => .name
  | .plus => .plus
  | .minus => .minus
  | .star => .star
  | .slash => .slash
  | .openParen => .openParen
  | .closeParen => .closeParen

/-- A text that the pattern of some kind allows. -/
def IsLexeme (text : List Char) : Prop :=
  ∃ kind : Kind, text ∈ kind.pattern.matches'

variable {c : Char} {cs lexeme rest : List Char} {token : Token} {kind : Kind}

/-- The other kinds have a single character for their text. -/
theorem Kind.cases (kind : Kind) : kind = .number ∨ kind = .name ∨
    ∃ c token, punctuation? c = some token ∧ token.kind = kind ∧ kind.pattern = .char c := by
  cases kind with
  | number => exact .inl rfl
  | name => exact .inr (.inl rfl)
  | plus => exact .inr (.inr ⟨'+', .plus, rfl, rfl, rfl⟩)
  | minus => exact .inr (.inr ⟨'-', .minus, rfl, rfl, rfl⟩)
  | star => exact .inr (.inr ⟨'*', .star, rfl, rfl, rfl⟩)
  | slash => exact .inr (.inr ⟨'/', .slash, rfl, rfl, rfl⟩)
  | openParen => exact .inr (.inr ⟨'(', .openParen, rfl, rfl, rfl⟩)
  | closeParen => exact .inr (.inr ⟨')', .closeParen, rfl, rfl, rfl⟩)

theorem first?_of_punctuation (h : punctuation? c = some token) (rest : List Char) :
    first? (c :: rest) = some (token, rest) := by
  unfold punctuation? at h
  split at h <;> cases h <;> rfl

theorem pattern_of_punctuation (h : punctuation? c = some token) :
    token.kind.pattern = .char c := by
  unfold punctuation? at h
  split at h <;> cases h <;> rfl

/-- The token at the start of a text has the pattern of its kind. -/
theorem matches_of_first? (h : first? cs = some (token, rest)) :
    token.text ∈ token.kind.pattern.matches' := by
  unfold first? at h
  split at h
  · next literal _ hscan =>
    cases h
    exact Pattern.mem_number.2 ⟨literal, Literal.isWellFormed_of_scan hscan, rfl⟩
  · split at h
    · cases h
    · next c tail _ =>
      split at h
      · next hstart =>
        cases h
        refine Pattern.mem_name.2 (isIdentifier_iff.2 ⟨c, tail.takeWhile isNameChar, ?_, hstart, ?_⟩)
        · simp [text]
        · exact fun d hd => List.mem_takeWhile_imp hd
      · obtain ⟨token', htoken, heq⟩ := Option.map_eq_some_iff.1 h
        cases heq
        rw [text_of_punctuation htoken, pattern_of_punctuation htoken]
        exact Pattern.mem_char.2 rfl

/-- **The longest token.** If a text starts with a lexeme, its first token starts with it. -/
theorem exists_first?_append (h : lexeme ∈ kind.pattern.matches') (rest : List Char) :
    ∃ token rest', first? (lexeme ++ rest) = some (token, rest') ∧ lexeme <+: token.text := by
  rcases kind.cases with rfl | rfl | ⟨c, token, htoken, rfl, hpattern⟩
  · obtain ⟨literal, hform, rfl⟩ := Pattern.mem_number.1 h
    obtain ⟨longer, rest', hscan, hbegins⟩ := Literal.exists_scan_append hform rest
    exact ⟨.number longer, rest', first?_of_scan hscan, hbegins⟩
  · obtain ⟨c, tail, htext, hstart, htail⟩ := isIdentifier_iff.1 (Pattern.mem_name.1 h)
    rw [String.toList_ofList] at htext
    subst htext
    refine ⟨_, _, first?_of_isNameStart hstart (tail ++ rest), ?_⟩
    rw [text, String.toList_ofList, List.takeWhile_append_of_pos htail]
    exact List.prefix_append _ _
  · rw [hpattern, Pattern.mem_char] at h
    subst h
    refine ⟨token, rest, first?_of_punctuation htoken rest, ?_⟩
    rw [text_of_punctuation htoken]

/-- Spacing ends a literal. -/
theorem ends_of_isSpacing (hrest : ∀ c, rest.head? = some c → isSpacing c = true) :
    Decimal.Ends rest := by
  intro c hc
  rcases isSpacing_iff.1 (hrest c hc) with rfl | rfl | rfl | rfl | rfl <;> decide

/-- It also ends a name. -/
theorem spanNameChars_append {tail : List Char} (htail : ∀ d ∈ tail, isNameChar d = true)
    (hrest : ∀ c, rest.head? = some c → isSpacing c = true) :
    (tail ++ rest).takeWhile isNameChar = tail ∧ (tail ++ rest).dropWhile isNameChar = rest := by
  rw [List.takeWhile_append_of_pos htail, List.dropWhile_append_of_pos htail]
  cases rest with
  | nil => exact ⟨List.append_nil tail, rfl⟩
  | cons c rest =>
      have hc : ¬isNameChar c = true := by
        rcases isSpacing_iff.1 (hrest c rfl) with rfl | rfl | rfl | rfl | rfl <;> decide
      rw [List.takeWhile_cons_of_neg hc, List.dropWhile_cons_of_neg hc]
      exact ⟨List.append_nil tail, rfl⟩

/-- A lexeme before spacing, or at the end, is the first token. -/
theorem exists_first?_of_isSpacing (h : lexeme ∈ kind.pattern.matches')
    (hrest : ∀ c, rest.head? = some c → isSpacing c = true) :
    ∃ token, first? (lexeme ++ rest) = some (token, rest) ∧ token.kind = kind ∧
      token.text = lexeme := by
  rcases kind.cases with rfl | rfl | ⟨c, token, htoken, rfl, hpattern⟩
  · obtain ⟨literal, hform, rfl⟩ := Pattern.mem_number.1 h
    have hscan := Literal.scan_text_append hform (ends_of_isSpacing hrest)
    exact ⟨.number literal, first?_of_scan hscan, rfl, rfl⟩
  · obtain ⟨c, tail, htext, hstart, htail⟩ := isIdentifier_iff.1 (Pattern.mem_name.1 h)
    rw [String.toList_ofList] at htext
    subst htext
    obtain ⟨htake, hdrop⟩ := spanNameChars_append htail hrest
    refine ⟨.name (String.ofList (c :: tail)), ?_, rfl, String.toList_ofList⟩
    rw [List.cons_append, first?_of_isNameStart hstart, htake, hdrop]
  · rw [hpattern, Pattern.mem_char] at h
    subst h
    exact ⟨token, first?_of_punctuation htoken rest, rfl, text_of_punctuation htoken⟩

end Token

end GrowthGrammar
