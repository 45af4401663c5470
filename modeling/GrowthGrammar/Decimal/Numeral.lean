/-!
# Decimal numerals

The decimal digits of a natural number, most significant first, and the number that a list of
digits denotes. `value_numeral` says that writing and reading agree.
-/

set_option autoImplicit false

namespace GrowthGrammar.Decimal

/-- The character of a decimal digit. -/
def digitChar (digit : Nat) : Char :=
  Char.ofNat (48 + digit)

/-- The number that a digit character stands for. -/
def digitValue (c : Char) : Nat :=
  c.toNat - 48

/-- The decimal digits of a natural number, without leading zeros. -/
def numeral (n : Nat) : List Char :=
  if n < 10 then [digitChar n] else numeral (n / 10) ++ [digitChar (n % 10)]
termination_by n

/-- The number that a list of digits denotes; no digits denote zero. -/
def value (digits : List Char) : Nat :=
  digits.foldl (fun n c => 10 * n + digitValue c) 0

/-- The numeral as a string. -/
def text (n : Nat) : String :=
  String.ofList (numeral n)

theorem digitValue_digitChar {d : Nat} (h : d < 10) : digitValue (digitChar d) = d := by
  revert d; decide

theorem isDigit_digitChar {d : Nat} (h : d < 10) : (digitChar d).isDigit = true := by
  revert d; decide

theorem value_append_singleton (digits : List Char) (c : Char) :
    value (digits ++ [c]) = 10 * value digits + digitValue c := by
  simp [value, List.foldl_append]

theorem value_numeral (n : Nat) : value (numeral n) = n := by
  induction n using Nat.strongRecOn with
  | _ n ih =>
    rw [numeral]
    split
    · next h => simp [value, digitValue_digitChar h]
    · next h =>
      rw [value_append_singleton, ih (n / 10) (by omega),
        digitValue_digitChar (Nat.mod_lt _ (by decide))]
      omega

theorem isDigit_of_mem_numeral {n : Nat} {c : Char} (h : c ∈ numeral n) : c.isDigit = true := by
  induction n using Nat.strongRecOn with
  | _ n ih =>
    rw [numeral] at h
    split at h
    · next hn =>
      obtain rfl := List.mem_singleton.1 h
      exact isDigit_digitChar hn
    · next hn =>
      rcases List.mem_append.1 h with h | h
      · exact ih (n / 10) (by omega) h
      · obtain rfl := List.mem_singleton.1 h
        exact isDigit_digitChar (Nat.mod_lt _ (by decide))

theorem numeral_ne_nil (n : Nat) : numeral n ≠ [] := by
  rw [numeral]
  split <;> simp

end GrowthGrammar.Decimal
