/-!
# Blank characters

Phrases and production keys may be spaced freely: every character with the Unicode property
`White_Space` is dropped before they are read. `isBlank` is that property as a table of ranges,
`compact` drops the blanks of a text. The lemmas say that `compact` keeps exactly the characters
that are not blank, in order.
-/

set_option autoImplicit false

namespace GrowthGrammar.Text

/-- The code points with the property `White_Space`, as inclusive ranges. -/
def blankRanges : List (Nat × Nat) :=
  [(0x0009, 0x000D), (0x0020, 0x0020), (0x0085, 0x0085), (0x00A0, 0x00A0), (0x1680, 0x1680),
   (0x2000, 0x200A), (0x2028, 0x2029), (0x202F, 0x202F), (0x205F, 0x205F), (0x3000, 0x3000)]

/-- Whether a character has the property `White_Space`. -/
def isBlank (c : Char) : Bool :=
  blankRanges.any fun range => range.1 ≤ c.toNat && c.toNat ≤ range.2

/-- The text without its blank characters. -/
def compact (text : List Char) : List Char :=
  text.filter fun c => !isBlank c

/-- The text without the blank characters at its end. -/
def trimRight (text : List Char) : List Char :=
  (text.reverse.dropWhile isBlank).reverse

@[simp] theorem compact_nil : compact [] = [] := rfl

@[simp] theorem compact_append (s t : List Char) : compact (s ++ t) = compact s ++ compact t := by
  simp [compact]

theorem mem_compact {c : Char} {text : List Char} :
    c ∈ compact text ↔ c ∈ text ∧ isBlank c = false := by
  simp [compact]

theorem compact_eq_self {text : List Char} :
    compact text = text ↔ ∀ c ∈ text, isBlank c = false := by
  simp [compact, List.filter_eq_self]

@[simp] theorem compact_compact (text : List Char) : compact (compact text) = compact text :=
  compact_eq_self.2 fun _ hc => (mem_compact.1 hc).2

end GrowthGrammar.Text
