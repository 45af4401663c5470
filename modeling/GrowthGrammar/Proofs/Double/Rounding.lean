import GrowthGrammar.Proofs.Double.Packing

/-!
# Rounding to a double

A rational number that lies in the interval of a double (`RoundsTo`) is rounded to that double,
from any mantissa with enough bits (`roundWithAccuracy_eq`). Rounding shifts the mantissa to the
exponent it should have, keeping two residual bits; `StandsFor` says which numbers a mantissa with
residual bits stands for, and shifting by one place halves the number.
-/

set_option autoImplicit false

namespace GrowthGrammar.Double

open Float.Model Float.Model.UnpackedFloat

/-! ## Residual bits -/

/-- A mantissa with residual bits stands for every number whose whole part is the mantissa and whose
fraction compares with one half as the bits say. -/
def StandsFor (em : ExtendedMantissa) (q : ℚ) : Prop :=
  match em.roundBit, em.stickyBit with
  | false, false => q = em.mantissa
  | false, true => em.mantissa < q ∧ q < em.mantissa + 1 / 2
  | true, false => q = em.mantissa + 1 / 2
  | true, true => em.mantissa + 1 / 2 < q ∧ q < em.mantissa + 1

theorem standsFor_exact (m : ℕ) : StandsFor (.ofMantissaAndAccuracy m .exact) m := rfl

theorem StandsFor.bounds {em : ExtendedMantissa} {q : ℚ} (h : StandsFor em q) :
    (em.mantissa : ℚ) ≤ q ∧ q < em.mantissa + 1 := by
  obtain ⟨m, round, sticky⟩ := em
  cases round <;> cases sticky <;> simp only [StandsFor] at h ⊢ <;> constructor <;> linarith

/-- A shift by one place halves the number: what was the last bit of the mantissa rounds, and what
rounded sticks. -/
theorem StandsFor.shiftRightOne {em : ExtendedMantissa} {q : ℚ} (h : StandsFor em q) :
    StandsFor em.shiftRightOne (q / 2) := by
  obtain ⟨m, round, sticky⟩ := em
  have hm : (m : ℚ) = 2 * (m / 2 : ℕ) + (m % 2 : ℕ) := by exact_mod_cast (Nat.div_add_mod m 2).symm
  show StandsFor ⟨m / 2, m % 2 != 0, round || sticky⟩ (q / 2)
  rcases Nat.mod_two_eq_zero_or_one m with hparity | hparity
  · rw [hparity, Nat.cast_zero] at hm
    rw [show (m % 2 != 0) = false by simp [hparity]]
    cases round <;> cases sticky <;>
      simp only [StandsFor, Bool.or_true, Bool.or_false] at h ⊢
    · linarith
    all_goals constructor <;> linarith
  · rw [hparity, Nat.cast_one] at hm
    rw [show (m % 2 != 0) = true by simp [hparity]]
    cases round <;> cases sticky <;>
      simp only [StandsFor, Bool.or_true, Bool.or_false] at h ⊢
    · linarith
    all_goals constructor <;> linarith

theorem StandsFor.shiftRight {em : ExtendedMantissa} {q : ℚ} (h : StandsFor em q) (n : ℕ) :
    StandsFor (em >>> n) (q / 2 ^ n) := by
  induction n with
  | zero =>
      rw [pow_zero, div_one]
      exact h
  | succ n ih =>
      have hhalf : q / 2 ^ (n + 1) = q / 2 ^ n / 2 := by
        rw [pow_succ, div_div]
      rw [hhalf]
      exact ih.shiftRightOne

/-- The numbers that are rounded to a whole number, ties going to the even one. -/
structure IsNear (n : ℕ) (q : ℚ) : Prop where
  le : (n : ℚ) - 1 / 2 ≤ q
  ge : q ≤ n + 1 / 2
  odd : n % 2 = 1 → (n : ℚ) - 1 / 2 < q ∧ q < n + 1 / 2

/-- Rounding a mantissa by its residual bits is rounding the number it stands for. -/
theorem roundedMantissa_eq {em : ExtendedMantissa} {q : ℚ} {n : ℕ} (h : StandsFor em q)
    (hnear : IsNear n q) : em.roundedMantissa = n := by
  obtain ⟨m, round, sticky⟩ := em
  obtain ⟨hle, hge, hodd⟩ := hnear
  have hlt : ∀ {a b : ℕ}, (a : ℚ) < b + 1 → a ≤ b := by
    intro a b hab
    have : a < b + 1 := by exact_mod_cast hab
    omega
  cases round <;> cases sticky <;> simp only [StandsFor] at h
  · have h₁ : m ≤ n := hlt (by linarith)
    have h₂ : n ≤ m := hlt (by linarith)
    show m = n
    omega
  · have h₁ : m ≤ n := hlt (by linarith)
    have h₂ : n ≤ m := hlt (by linarith)
    show m = n
    omega
  · have h₁ : m ≤ n := by
      have : (m : ℚ) ≤ n := by linarith
      exact_mod_cast this
    have h₂ : n ≤ m + 1 := by
      have : (n : ℚ) ≤ (m : ℚ) + 1 := by linarith
      exact_mod_cast this
    -- one half away on either side, so the whole number is even
    have heven : n % 2 = 0 := by
      by_contra hne
      obtain ⟨hlow, hhigh⟩ := hodd (by omega)
      have h₃ : m < n := by
        have : (m : ℚ) < n := by linarith
        exact_mod_cast this
      have h₄ : n < m + 1 := by
        have : (n : ℚ) < (m : ℚ) + 1 := by linarith
        exact_mod_cast this
      omega
    show m + m % 2 = n
    omega
  · have h₁ : m < n := by
      have : (m : ℚ) < n := by linarith
      exact_mod_cast this
    have h₂ : n ≤ m + 1 := by
      have : (n : ℚ) < ((m + 1 : ℕ) : ℚ) + 1 := by push_cast; linarith
      exact hlt this
    show m + 1 = n
    omega

/-! ## Intervals of doubles -/

/-- The numbers that are rounded to a magnitude: those in its interval, whose ends count if the
significand is even. -/
structure RoundsTo (b : Decimal.Binary) (v : ℚ) : Prop where
  low_le : (b.interval.1 : ℚ) * 2 ^ (b.exponent - 2) ≤ v
  le_high : v ≤ (b.interval.2 : ℚ) * 2 ^ (b.exponent - 2)
  odd : b.significand % 2 = 1 → (b.interval.1 : ℚ) * 2 ^ (b.exponent - 2) < v ∧
    v < (b.interval.2 : ℚ) * 2 ^ (b.exponent - 2)

/-- The exponent that a mantissa is shifted to. -/
def target (m : ℕ) (e : ℤ) : ℤ :=
  max (m.log2 + 1 + e - 53) (-1074)

theorem min_le_target (m : ℕ) (e : ℤ) : -1074 ≤ target m e :=
  le_max_right _ _

theorem shiftToTargetExponent_eq {m : ℕ} {e : ℤ} (accuracy : Accuracy) (he : e ≤ target m e) :
    shiftToTargetExponent Format.binary64 m e accuracy =
      (ExtendedMantissa.ofMantissaAndAccuracy m accuracy >>> (target m e - e).toNat,
        target m e) := by
  have htarget : Format.binary64.targetExponent (totalExponent m e) = target m e := rfl
  unfold shiftToTargetExponent shiftToExponent
  simp only [htarget, Prod.mk.injEq, true_and]
  omega

/-- An aligned significand stands at its target. -/
theorem target_of_isAligned {m : ℕ} {e : ℤ} (h : IsAligned m e) : target m e = e := by
  obtain ⟨hlt, hmin, hfull⟩ := h
  unfold target
  rcases hfull with hfull | rfl
  · rw [log2_eq_of_full hlt hfull]
    omega
  · have hlog : m.log2 < 53 := by
      by_cases hm : m = 0
      · subst hm
        decide
      · exact (Nat.log2_lt hm).2 hlt
    omega

/-- A significand that has carried into one more bit is shifted back. -/
theorem target_of_carry {e : ℤ} (he : -1074 ≤ e) : target (2 ^ 53) e = e + 1 := by
  have hlog : (2 ^ 53 : ℕ).log2 = 53 := Nat.log2_two_pow
  unfold target
  omega

theorem shiftToTargetExponent_carry {e : ℤ} (he : -1074 ≤ e) :
    shiftToTargetExponent Format.binary64 (2 ^ 53) e .exact =
      (ExtendedMantissa.ofMantissaAndAccuracy (2 ^ 53) .exact >>> 1, e + 1) := by
  have htarget := target_of_carry he
  rw [shiftToTargetExponent_eq .exact (by omega), htarget, add_sub_cancel_left]
  rfl

theorem mantissa_of_carry :
    (ExtendedMantissa.ofMantissaAndAccuracy (2 ^ 53) .exact >>> 1).mantissa = 2 ^ 52 := by
  show 2 ^ 53 / 2 = 2 ^ 52
  norm_num

section Interval

variable {b : Decimal.Binary} {v : ℚ}

/-- In units of the last place, the interval reaches one half to either side, and one quarter below
a power of two. -/
theorem RoundsTo.isNear (h : RoundsTo b v) (hpos : 0 < b.significand) :
    IsNear b.significand (v / 2 ^ b.exponent) := by
  obtain ⟨hlow, hhigh, hodd⟩ := h
  have hunit : (0 : ℚ) < 2 ^ b.exponent := by positivity
  have hquarter : (2 : ℚ) ^ (b.exponent - 2) = 2 ^ b.exponent / 4 := by
    rw [two_zpow_eq_quarters b.exponent, mul_div_cancel_left₀ _ four_ne_zero]
  have hlow' : (b.significand : ℚ) - 1 / 2 ≤ b.interval.1 / 4 := by
    have hcast : (4 * b.significand : ℕ) ≤ b.interval.1 + 2 := by
      unfold Decimal.Binary.interval
      dsimp only
      split <;> omega
    have : (4 : ℚ) * b.significand ≤ b.interval.1 + 2 := by exact_mod_cast hcast
    linarith
  have hhigh' : (b.interval.2 : ℚ) / 4 = b.significand + 1 / 2 := by
    unfold Decimal.Binary.interval
    push_cast
    ring
  rw [hquarter] at hlow hhigh hodd
  have hscale : ∀ n : ℚ, n * (2 ^ b.exponent / 4) = n / 4 * 2 ^ b.exponent := fun n => by ring
  rw [hscale] at hlow hhigh
  rw [hscale, hscale] at hodd
  refine ⟨?_, ?_, ?_⟩
  · rw [le_div_iff₀ hunit]
    exact (mul_le_mul_of_nonneg_right hlow' hunit.le).trans hlow
  · rw [div_le_iff₀ hunit, ← hhigh']
    exact hhigh
  · intro hsignificand
    obtain ⟨hlt, hgt⟩ := hodd hsignificand
    refine ⟨?_, ?_⟩
    · rw [lt_div_iff₀ hunit]
      exact (mul_le_mul_of_nonneg_right hlow' hunit.le).trans_lt hlt
    · rw [div_lt_iff₀ hunit, ← hhigh']
      exact hgt

theorem RoundsTo.low_lt (h : RoundsTo b v) {n : ℕ} {e : ℤ} (hlt : v < n * 2 ^ e)
    (he : e ≤ b.exponent - 2) : b.interval.1 < n := by
  have hpow : (2 : ℚ) ^ e ≤ 2 ^ (b.exponent - 2) := zpow_le_zpow_right₀ (by norm_num) he
  have hchain : (b.interval.1 : ℚ) * 2 ^ (b.exponent - 2) < n * 2 ^ (b.exponent - 2) :=
    calc (b.interval.1 : ℚ) * 2 ^ (b.exponent - 2) ≤ v := h.low_le
      _ < n * 2 ^ e := hlt
      _ ≤ n * 2 ^ (b.exponent - 2) := mul_le_mul_of_nonneg_left hpow (Nat.cast_nonneg n)
  exact_mod_cast lt_of_mul_lt_mul_right hchain (by positivity)

end Interval

/-! ## Rounding into an interval -/

section Rounding

variable {b : Decimal.Binary} {v : ℚ} {m : ℕ} {e : ℤ} {accuracy : Accuracy}

theorem mantissa_ofMantissaAndAccuracy (m : ℕ) (accuracy : Accuracy) :
    (ExtendedMantissa.ofMantissaAndAccuracy m accuracy).mantissa = m := by
  match accuracy with
  | .exact => rfl
  | .inexact .lt => rfl
  | .inexact .eq => rfl
  | .inexact .gt => rfl

/-- A number has at most 53 bits above its target. -/
theorem lt_of_standsFor (h : StandsFor (.ofMantissaAndAccuracy m accuracy) (v / 2 ^ e)) :
    v < 2 ^ (target m e + 53) := by
  have hunit : (0 : ℚ) < 2 ^ e := by positivity
  have hlt := h.bounds.2
  rw [mantissa_ofMantissaAndAccuracy, div_lt_iff₀ hunit] at hlt
  have hm : (m : ℚ) + 1 ≤ 2 ^ (m.log2 + 1) := by exact_mod_cast Nat.lt_log2_self
  calc v < (m + 1) * 2 ^ e := hlt
    _ ≤ 2 ^ (m.log2 + 1) * 2 ^ e := mul_le_mul_of_nonneg_right hm hunit.le
    _ = 2 ^ (e + (m.log2 + 1 : ℕ)) := (zpow_eq_pow_mul two_ne_zero rfl).symm
    _ ≤ 2 ^ (target m e + 53) := by
      refine zpow_le_zpow_right₀ (by norm_num) ?_
      unfold target
      omega

/-- Above the least exponent, it has just as many. -/
theorem le_of_standsFor (h : StandsFor (.ofMantissaAndAccuracy m accuracy) (v / 2 ^ e))
    (hm : 0 < m ∨ e ≤ -1022) (htarget : -1074 < target m e) : 2 ^ (target m e + 52) ≤ v := by
  have hunit : (0 : ℚ) < 2 ^ e := by positivity
  have hle := h.bounds.1
  rw [mantissa_ofMantissaAndAccuracy, le_div_iff₀ hunit] at hle
  have hexp : target m e + 52 = e + m.log2 := by
    unfold target at htarget ⊢
    omega
  have hpos : m ≠ 0 := by
    rintro rfl
    have hlog : (0 : ℕ).log2 = 0 := by decide
    unfold target at htarget
    omega
  have hlog : (2 : ℚ) ^ m.log2 ≤ m := by exact_mod_cast Nat.log2_self_le hpos
  calc (2 : ℚ) ^ (target m e + 52) = 2 ^ m.log2 * 2 ^ e := zpow_eq_pow_mul two_ne_zero hexp
    _ ≤ m * 2 ^ e := mul_le_mul_of_nonneg_right hlog hunit.le
    _ ≤ v := hle

/-- A number in the interval of a double has no more bits than the double. -/
theorem target_le (hb : IsCanonical b.significand b.exponent) (hpos : 0 < b.significand)
    (hv : RoundsTo b v) (h : StandsFor (.ofMantissaAndAccuracy m accuracy) (v / 2 ^ e))
    (hm : 0 < m ∨ e ≤ -1022) : target m e ≤ b.exponent := by
  by_contra hmore
  have hle := le_of_standsFor h hm (by have := hb.min_le; omega)
  have hge := (hv.isNear hpos).ge
  have hunit : (0 : ℚ) < 2 ^ b.exponent := by positivity
  have hsize : (b.significand : ℚ) + 1 ≤ 2 ^ 53 := by exact_mod_cast hb.lt
  rw [div_le_iff₀ hunit] at hge
  have hchain : (2 : ℚ) ^ 53 * 2 ^ b.exponent ≤ (b.significand + 1 / 2) * 2 ^ b.exponent :=
    calc (2 : ℚ) ^ 53 * 2 ^ b.exponent = 2 ^ (b.exponent + 53) :=
          (zpow_eq_pow_mul two_ne_zero rfl).symm
      _ ≤ 2 ^ (target m e + 52) := zpow_le_zpow_right₀ (by norm_num) (by omega)
      _ ≤ v := hle
      _ ≤ (b.significand + 1 / 2) * 2 ^ b.exponent := hge
  have := le_of_mul_le_mul_right hchain hunit
  linarith

/-- It has fewer only if it lies just below a power of two. -/
theorem eq_of_target_lt (hb : IsCanonical b.significand b.exponent) (hv : RoundsTo b v)
    (h : StandsFor (.ofMantissaAndAccuracy m accuracy) (v / 2 ^ e))
    (hless : target m e < b.exponent) :
    target m e + 1 = b.exponent ∧ b.significand = 2 ^ 52 ∧ b.interval.1 = 2 ^ 54 - 1 := by
  have hmin := min_le_target m e
  have hfull : 2 ^ 52 ≤ b.significand := hb.full.resolve_right (by omega)
  have hinterval : b.interval.1 = 4 * b.significand -
      if b.significand = 2 ^ 52 ∧ b.exponent > -1074 then 1 else 2 := rfl
  -- the interval begins below a number of 53 bits at the target
  have hroom : ∀ k : ℕ, target m e - k ≤ b.exponent - 2 → b.interval.1 < 2 ^ (53 + k) := by
    intro k hk
    refine hv.low_lt ?_ hk
    calc v < 2 ^ (target m e + 53) := lt_of_standsFor h
      _ = ((2 ^ (53 + k) : ℕ) : ℚ) * 2 ^ (target m e - k) := by
        rw [Nat.cast_pow, Nat.cast_ofNat]
        exact zpow_eq_pow_mul two_ne_zero (by push_cast; ring)
  have hlow : b.interval.1 < 2 ^ 54 := hroom 1 (by push_cast; omega)
  have hpower : b.significand = 2 ^ 52 := by
    by_contra hne
    rw [hinterval, if_neg (fun hcase => hne hcase.1)] at hlow
    omega
  have hfirst : b.interval.1 = 2 ^ 54 - 1 := by
    rw [hinterval, if_pos ⟨hpower, by omega⟩, hpower]
    norm_num
  refine ⟨?_, hpower, hfirst⟩
  by_contra hne
  have hhalf : b.interval.1 < 2 ^ 53 := hroom 0 (by push_cast; omega)
  omega

/-- The mantissa at its target rounds to the significand, or to one more bit if that is a power of
two and the number lies below it. -/
theorem rounded_cases (hb : IsCanonical b.significand b.exponent) (hpos : 0 < b.significand)
    (hv : RoundsTo b v) (h : StandsFor (.ofMantissaAndAccuracy m accuracy) (v / 2 ^ e))
    (hm : 0 < m ∨ e ≤ -1022) :
    (target m e = b.exponent ∧ IsNear b.significand (v / 2 ^ target m e)) ∨
      (target m e + 1 = b.exponent ∧ b.significand = 2 ^ 52 ∧
        IsNear (2 ^ 53) (v / 2 ^ target m e)) := by
  rcases (target_le hb hpos hv h hm).lt_or_eq with hless | heq
  · obtain ⟨hnext, hpower, hfirst⟩ := eq_of_target_lt hb hv h hless
    have hunit : (0 : ℚ) < 2 ^ target m e := by positivity
    refine .inr ⟨hnext, hpower, ?_, ?_, by norm_num⟩
    · have hle := hv.low_le
      rw [hfirst, show b.exponent - 2 = target m e - 1 by omega, zpow_sub₀ (by norm_num)] at hle
      rw [le_div_iff₀ hunit]
      refine le_trans (le_of_eq ?_) hle
      push_cast
      ring
    · rw [div_le_iff₀ hunit]
      refine (lt_of_standsFor h).le.trans ?_
      rw [add_comm, zpow_add₀ (by norm_num)]
      refine mul_le_mul_of_nonneg_right ?_ hunit.le
      norm_num
  · refine .inl ⟨heq, ?_⟩
    rw [heq]
    exact hv.isNear hpos

/-- Rounding is shifting to the target, rounding by the residual bits, and shifting once more. -/
theorem roundWithAccuracy_of_shift {s : Sign} {em next : ExtendedMantissa} {e₁ e₂ : ℤ}
    (hfirst : shiftToTargetExponent Format.binary64 m e accuracy = (em, e₁))
    (hnext : shiftToTargetExponent Format.binary64 em.roundedMantissa e₁ .exact = (next, e₂))
    {n : ℕ} (hn : next.mantissa = n) (hpos : 0 < n) :
    roundWithAccuracy Format.binary64 s m e accuracy = .finite s n e₂ hpos := by
  subst hn
  unfold roundWithAccuracy
  simp only [hfirst, hnext]
  rw [dif_neg (by omega)]

/-- The first shift brings a mantissa to its target, with what is lost in the residual bits. -/
theorem StandsFor.shiftToTarget
    (h : StandsFor (.ofMantissaAndAccuracy m accuracy) (v / 2 ^ e)) (he : e ≤ target m e) :
    StandsFor (ExtendedMantissa.ofMantissaAndAccuracy m accuracy >>> (target m e - e).toNat)
      (v / 2 ^ target m e) := by
  have hdiv : v / 2 ^ target m e = v / 2 ^ e / 2 ^ (target m e - e).toNat := by
    rw [div_div, mul_comm, ← zpow_eq_pow_mul two_ne_zero]
    omega
  rw [hdiv]
  exact h.shiftRight _

/-- **Rounding into an interval.** A number in the interval of a double is rounded to it, from any
mantissa that has not yet been shifted beyond its target. -/
theorem roundWithAccuracy_eq (hb : IsCanonical b.significand b.exponent)
    (hpos : 0 < b.significand) (hv : RoundsTo b v) (s : Sign) (accuracy : Accuracy)
    (h : StandsFor (.ofMantissaAndAccuracy m accuracy) (v / 2 ^ e)) (he : e ≤ target m e)
    (hm : 0 < m ∨ e ≤ -1022) :
    roundWithAccuracy Format.binary64 s m e accuracy =
      .finite s b.significand b.exponent hpos := by
  have hshift := h.shiftToTarget he
  have hfirst := shiftToTargetExponent_eq accuracy he
  rcases rounded_cases hb hpos hv h hm with ⟨htarget, hnear⟩ | ⟨htarget, hpower, hnear⟩
  -- the rounded mantissa is the significand, and the second shift leaves it
  · have hrounded := roundedMantissa_eq hshift hnear
    have hsame := target_of_isAligned hb.isAligned
    refine roundWithAccuracy_of_shift hfirst ?_ (mantissa_ofMantissaAndAccuracy _ .exact) hpos
    rw [hrounded, htarget, shiftToTargetExponent_eq .exact hsame.ge, hsame, Int.sub_self]
    rfl
  -- the rounded mantissa carries into a 54th bit, which the second shift takes back
  · have hrounded := roundedMantissa_eq hshift hnear
    have hhalf : (ExtendedMantissa.ofMantissaAndAccuracy (2 ^ 53) .exact >>> 1).mantissa =
        b.significand := by
      rw [hpower]
      exact mantissa_of_carry
    refine roundWithAccuracy_of_shift hfirst ?_ hhalf hpos
    rw [hrounded, shiftToTargetExponent_carry (min_le_target m e), htarget]

end Rounding

end GrowthGrammar.Double
