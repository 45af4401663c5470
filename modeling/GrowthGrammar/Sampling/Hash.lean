import GrowthGrammar.Decimal.Numeral

/-!
# Seeds

A draw is seeded by a text: the symbol of the occurrence and its position. The 64-bit FNV-1a hash of
the text's bytes is the number that the generator starts from.
-/

set_option autoImplicit false

namespace GrowthGrammar

/-- The seed of the occurrence of a symbol at a position. -/
def occurrenceSeed (symbol : String) (index : Nat) : String :=
  symbol ++ "-" ++ Decimal.text index

/-- The 64-bit FNV-1a hash of a list of bytes. -/
def fnv1a (bytes : List UInt8) : UInt64 :=
  bytes.foldl (fun hash byte => (hash ^^^ byte.toUInt64) * 0x100000001B3) 0xCBF29CE484222325

/-- The number that a seed stands for. -/
def seedHash (seed : String) : UInt64 :=
  fnv1a seed.toUTF8.toList

end GrowthGrammar
