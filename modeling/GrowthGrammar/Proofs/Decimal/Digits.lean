import GrowthGrammar.Decimal.Literal
import Mathlib.Data.List.Basic
import Mathlib.Tactic.Ring

/-!
# Digits

How long a numeral is, and what digits are worth in a row: digits in front count by the power of ten
that the digits behind them make room for.
-/

set_option autoImplicit false

namespace GrowthGrammar.Decimal

theorem ne_of_isDigit {c d : Char} (hc : c.isDigit = true) (hd : d.isDigit = false) : c ≠ d := by
  rintro rfl
  rw [hc] at hd
  cases hd

theorem length_numeral (n : Nat) :
    (numeral n).length = if n < 10 then 1 else (numeral (n / 10)).length + 1 := by
  rw [numeral]
  split <;> simp

/-- A number is below the power of ten with as many zeros as it has digits. -/
theorem lt_pow_length_numeral (n : Nat) : n < 10 ^ (numeral n).length := by
  induction n using Nat.strongRecOn with
  | _ n ih =>
      rw [length_numeral]
      split
      · omega
      · have hlt := ih (n / 10) (by omega)
        rw [pow_succ]
        omega

/-- It is at least the power of ten with one zero less. -/
theorem pow_length_numeral_le {n : Nat} (hn : 0 < n) : 10 ^ ((numeral n).length - 1) ≤ n := by
  induction n using Nat.strongRecOn with
  | _ n ih =>
      rw [length_numeral]
      split
      · show 1 ≤ n
        omega
      -- one digit less is at least the power with one zero less
      · have hle := ih (n / 10) (by omega) (by omega)
        have hlength := List.length_pos_iff.2 (numeral_ne_nil (n / 10))
        have hpow : 10 ^ ((numeral (n / 10)).length + 1 - 1) =
            10 ^ ((numeral (n / 10)).length - 1) * 10 := by
          rw [← pow_succ]
          congr 1
          omega
        rw [hpow]
        omega

/-- A number other than zero does not begin with a zero. -/
theorem head?_numeral {n : Nat} (hn : 0 < n) : (numeral n).head? ≠ some '0' := by
  induction n using Nat.strongRecOn with
  | _ n ih =>
      rw [numeral]
      split
      · next hlt =>
        have hdigit : ∀ d : Fin 10, 0 < d.val → digitChar d.val ≠ '0' := by decide
        intro hzero
        exact hdigit ⟨n, hlt⟩ hn (Option.some.inj hzero)
      · rw [List.head?_append_of_ne_nil (numeral (n / 10)) (numeral_ne_nil _)]
        exact ih (n / 10) (by omega) (by omega)

theorem value_append (front back : List Char) :
    value (front ++ back) = value front * 10 ^ back.length + value back := by
  have hfold : ∀ n, back.foldl (fun n c => 10 * n + digitValue c) n =
      n * 10 ^ back.length + value back := by
    induction back with
    | nil => simp [value]
    | cons c back ih =>
        intro n
        have hvalue : value (c :: back) = digitValue c * 10 ^ back.length + value back := by
          rw [← ih, value, List.foldl_cons, Nat.mul_zero, Nat.zero_add]
        rw [List.foldl_cons, ih, hvalue, List.length_cons, pow_succ]
        ring
  rw [value, List.foldl_append, hfold]
  rfl

theorem value_replicate_zero (n : Nat) : value (List.replicate n '0') = 0 := by
  induction n with
  | zero => rfl
  | succ n ih =>
      rw [List.replicate_succ', value_append_singleton, ih]
      rfl

end GrowthGrammar.Decimal
