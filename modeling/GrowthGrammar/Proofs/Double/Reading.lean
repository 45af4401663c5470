import GrowthGrammar.Proofs.Decimal.Digits
import GrowthGrammar.Proofs.Double.Rounding

/-!
# Reading a double

A decimal in the interval of a positive double is read as that double (`nearest_eq`), whichever way
the reader takes: a product or quotient of two doubles that are exact, one division or
multiplication of long mantissas, or a bound that settles extreme decimals at once.
-/

set_option autoImplicit false

namespace GrowthGrammar.Double

open Float.Model Float.Model.UnpackedFloat

/-! ## Products and quotients -/

/-- A quotient with its remainder stands for the exact quotient. -/
theorem standsFor_quotient {num den : ℕ} (hden : 0 < den) :
    StandsFor (.ofMantissaAndAccuracy (num / den) (accuracyOfFraction (num % den) den))
      (num / den) := by
  have hdenq : (0 : ℚ) < den := by exact_mod_cast hden
  have hsplit : (num : ℚ) / den = (num / den : ℕ) + (num % den : ℕ) / den := by
    rw [div_eq_iff hdenq.ne', add_mul, div_mul_cancel₀ _ hdenq.ne']
    exact_mod_cast (Nat.div_add_mod' num den).symm
  have hlt : ((num % den : ℕ) : ℚ) / den < 1 := by
    rw [div_lt_one hdenq]
    exact_mod_cast Nat.mod_lt num hden
  rw [hsplit]
  unfold accuracyOfFraction
  by_cases hzero : num % den = 0
  · rw [if_pos hzero, hzero]
    show _ = ((num / den : ℕ) : ℚ)
    rw [Nat.cast_zero, zero_div, add_zero]
  · rw [if_neg hzero]
    have hpos : 0 < ((num % den : ℕ) : ℚ) / den := by
      have : 0 < num % den := by omega
      positivity
    have hdouble : ((2 * (num % den) : ℕ) : ℚ) = 2 * (num % den : ℕ) := by
      push_cast
      rfl
    cases hcompare : compare (2 * (num % den)) den with
    | lt =>
        have hhalf : ((num % den : ℕ) : ℚ) / den < 1 / 2 := by
          rw [div_lt_iff₀ hdenq]
          have : ((2 * (num % den) : ℕ) : ℚ) < den := by exact_mod_cast Nat.compare_eq_lt.1 hcompare
          linarith
        show ((num / den : ℕ) : ℚ) < _ ∧ _ < ((num / den : ℕ) : ℚ) + 1 / 2
        constructor <;> linarith
    | eq =>
        have hhalf : ((num % den : ℕ) : ℚ) / den = 1 / 2 := by
          rw [div_eq_iff hdenq.ne']
          have : ((2 * (num % den) : ℕ) : ℚ) = den := by exact_mod_cast Nat.compare_eq_eq.1 hcompare
          linarith
        show _ = ((num / den : ℕ) : ℚ) + 1 / 2
        linarith
    | gt =>
        have hhalf : 1 / 2 < ((num % den : ℕ) : ℚ) / den := by
          rw [lt_div_iff₀ hdenq]
          have : (den : ℚ) < ((2 * (num % den) : ℕ) : ℚ) := by
            exact_mod_cast Nat.compare_eq_gt.1 hcompare
          linarith
        show ((num / den : ℕ) : ℚ) + 1 / 2 < _ ∧ _ < ((num / den : ℕ) : ℚ) + 1
        constructor <;> linarith

section Operations

variable {b : Decimal.Binary} {v : ℚ} {m n : ℕ} {e f : ℤ}

/-- A product of two positive numbers with enough bits between them. -/
theorem mul_eq (hb : IsCanonical b.significand b.exponent) (hpos : 0 < b.significand)
    (hv : RoundsTo b v) (hm : 0 < m) (hn : 0 < n) (hbits : 2 ^ 52 ≤ m * n)
    (hvalue : v = m * 2 ^ e * (n * 2 ^ f)) :
    UnpackedFloat.mul Format.binary64 (.finite .positive m e hm) (.finite .positive n f hn) =
      .finite .positive b.significand b.exponent hpos := by
  have hexact : v / 2 ^ (e + f) = ((m * n : ℕ) : ℚ) := by
    rw [hvalue, zpow_add₀ (by norm_num)]
    push_cast
    field_simp
  have hlog : 52 ≤ (m * n).log2 := (Nat.le_log2 (by omega)).2 hbits
  refine roundWithAccuracy_eq hb hpos hv .positive .exact ?_ ?_ (.inl (by omega))
  · rw [hexact]
    exact standsFor_exact (m * n)
  · unfold target
    omega

/-- The exponent at which a quotient is taken. -/
def quotientExponent (m : ℕ) (e : ℤ) (n : ℕ) (f : ℤ) : ℤ :=
  min (e - f) (max (m.log2 + e - (n.log2 + f) - 53) (-1074))

/-- At that exponent the quotient has 53 bits, unless it is too small to have them. -/
theorem le_quotient (hm : 0 < m) (hn : 0 < n) (hexp : -1074 < quotientExponent m e n f) :
    2 ^ 52 ≤ m * 2 ^ (e - f - quotientExponent m e n f).toNat / n := by
  have hshift : n.log2 + 53 ≤ m.log2 + (e - f - quotientExponent m e n f).toNat := by
    unfold quotientExponent at hexp ⊢
    omega
  have hmlog : 2 ^ m.log2 ≤ m := Nat.log2_self_le hm.ne'
  have hnlog : n < 2 ^ (n.log2 + 1) := Nat.lt_log2_self
  rw [Nat.le_div_iff_mul_le hn]
  calc 2 ^ 52 * n ≤ 2 ^ 52 * 2 ^ (n.log2 + 1) := Nat.mul_le_mul_left _ hnlog.le
    _ = 2 ^ (n.log2 + 53) := by rw [← pow_add]; congr 1; omega
    _ ≤ 2 ^ (m.log2 + (e - f - quotientExponent m e n f).toNat) :=
      Nat.pow_le_pow_right (by norm_num) hshift
    _ = 2 ^ m.log2 * 2 ^ (e - f - quotientExponent m e n f).toNat := pow_add _ _ _
    _ ≤ m * 2 ^ (e - f - quotientExponent m e n f).toNat := Nat.mul_le_mul_right _ hmlog

/-- A quotient of two positive numbers. -/
theorem div_eq (hb : IsCanonical b.significand b.exponent) (hpos : 0 < b.significand)
    (hv : RoundsTo b v) (hm : 0 < m) (hn : 0 < n)
    (hvalue : v = m * 2 ^ e / (n * 2 ^ f)) :
    UnpackedFloat.div Format.binary64 (.finite .positive m e hm) (.finite .positive n f hn) =
      .finite .positive b.significand b.exponent hpos := by
  have hexp : min (e - f) (Format.binary64.targetExponent
      (totalExponent m e - totalExponent n f)) = quotientExponent m e n f := by
    have htarget : ∀ t : ℤ, Format.binary64.targetExponent t = max (t - 53) (-1074) := fun _ => rfl
    rw [htarget]
    unfold quotientExponent totalExponent
    omega
  simp only [UnpackedFloat.div, divCore, hexp, Nat.shiftLeft_eq]
  have hle : quotientExponent m e n f ≤ e - f := min_le_left _ _
  have hscaled : v / 2 ^ quotientExponent m e n f =
      ((m * 2 ^ (e - f - quotientExponent m e n f).toNat : ℕ) : ℚ) / n := by
    have hnq : (n : ℚ) ≠ 0 := by exact_mod_cast hn.ne'
    push_cast
    rw [hvalue, ← zpow_natCast, Int.toNat_of_nonneg (by omega), zpow_sub₀ (by norm_num),
      zpow_sub₀ (by norm_num)]
    field_simp
  refine roundWithAccuracy_eq hb hpos hv .positive _ ?_ ?_ ?_
  · rw [hscaled]
    exact standsFor_quotient hn
  · by_cases hsmall : -1074 < quotientExponent m e n f
    · have hlog := (Nat.le_log2 (Nat.ne_of_gt (Nat.lt_of_lt_of_le (by norm_num)
        (le_quotient hm hn hsmall)))).2 (le_quotient hm hn hsmall)
      unfold target
      omega
    · exact le_trans (by omega) (le_max_right _ _)
  · by_cases hsmall : -1074 < quotientExponent m e n f
    · exact .inl (Nat.lt_of_lt_of_le (by norm_num) (le_quotient hm hn hsmall))
    · exact .inr (by omega)

end Operations

/-! ## Decimals -/

section Decimals

variable {b : Decimal.Binary} {v : ℚ} {m : ℕ}

/-- No double is rounded to from far below the least one or above the greatest. -/
theorem RoundsTo.bounds (hv : RoundsTo b v) (hb : IsCanonical b.significand b.exponent)
    (hpos : 0 < b.significand) : (2 : ℚ) ^ (-1075 : ℤ) ≤ v ∧ v < 2 ^ (1024 : ℤ) := by
  obtain ⟨hlt, hmin, hmax, -⟩ := hb
  have hlow : 2 ≤ b.interval.1 := by
    unfold Decimal.Binary.interval
    dsimp only
    split <;> omega
  have hhigh : b.interval.2 < 2 ^ 55 := by
    unfold Decimal.Binary.interval
    dsimp only
    omega
  constructor
  · calc (2 : ℚ) ^ (-1075 : ℤ) = 2 * 2 ^ (-1076 : ℤ) := by
          exact zpow_eq_pow_mul (k := 1) two_ne_zero (by norm_num)
      _ ≤ 2 * 2 ^ (b.exponent - 2) :=
          mul_le_mul_of_nonneg_left (zpow_le_zpow_right₀ (by norm_num) (by omega)) (by norm_num)
      _ ≤ b.interval.1 * 2 ^ (b.exponent - 2) :=
          mul_le_mul_of_nonneg_right (by exact_mod_cast hlow) (by positivity)
      _ ≤ v := hv.low_le
  · calc v ≤ b.interval.2 * 2 ^ (b.exponent - 2) := hv.le_high
      _ < 2 ^ 55 * 2 ^ (b.exponent - 2) :=
          mul_lt_mul_of_pos_right (by exact_mod_cast hhigh) (by positivity)
      _ ≤ 2 ^ 55 * 2 ^ (969 : ℤ) :=
          mul_le_mul_of_nonneg_left (zpow_le_zpow_right₀ (by norm_num) (by omega)) (by norm_num)
      _ = 2 ^ (1024 : ℤ) := (zpow_eq_pow_mul two_ne_zero (by norm_num)).symm

/-- A double lies inside its own interval. -/
theorem roundsTo_self (hpos : 0 < b.significand) :
    RoundsTo b (b.significand * 2 ^ b.exponent) := by
  have hquarter := two_zpow_eq_quarters b.exponent
  have hunit : (0 : ℚ) < 2 ^ (b.exponent - 2) := by positivity
  have hlow : b.interval.1 < 4 * b.significand := by
    unfold Decimal.Binary.interval
    dsimp only
    split <;> omega
  have hhigh : 4 * b.significand < b.interval.2 := by
    unfold Decimal.Binary.interval
    dsimp only
    omega
  have hvalue : (b.significand : ℚ) * 2 ^ b.exponent =
      (4 * b.significand : ℕ) * 2 ^ (b.exponent - 2) := by
    rw [hquarter]
    push_cast
    ring
  have hlt : (b.interval.1 : ℚ) * 2 ^ (b.exponent - 2) < b.significand * 2 ^ b.exponent := by
    rw [hvalue]
    exact mul_lt_mul_of_pos_right (by exact_mod_cast hlow) hunit
  have hgt : (b.significand : ℚ) * 2 ^ b.exponent < b.interval.2 * 2 ^ (b.exponent - 2) := by
    rw [hvalue]
    exact mul_lt_mul_of_pos_right (by exact_mod_cast hhigh) hunit
  exact ⟨hlt.le, hgt.le, fun _ => ⟨hlt, hgt⟩⟩

/-- Whole numbers of at most 53 bits are doubles. -/
theorem ofNat_eq (hm : 0 < m) (hlt : m < 2 ^ 53) :
    ∃ (b : Decimal.Binary) (hpos : 0 < b.significand), IsCanonical b.significand b.exponent ∧
      2 ^ 52 ≤ b.significand ∧ (m : ℚ) = b.significand * 2 ^ b.exponent ∧
      UnpackedFloat.ofNat Format.binary64 m = .finite .positive b.significand b.exponent hpos := by
  have hlog : m.log2 < 53 := (Nat.log2_lt hm.ne').2 hlt
  have hself := Nat.log2_self_le hm.ne'
  have hnext : m < 2 ^ (m.log2 + 1) := Nat.lt_log2_self
  have hpow : 2 ^ m.log2 * 2 ^ (52 - m.log2) = 2 ^ 52 := by
    rw [← pow_add]
    congr 1
    omega
  have hfull : 2 ^ 52 ≤ m * 2 ^ (52 - m.log2) := by
    rw [← hpow]
    exact Nat.mul_le_mul_right _ hself
  have hbelow : m * 2 ^ (52 - m.log2) < 2 ^ 53 := by
    calc m * 2 ^ (52 - m.log2) < 2 ^ (m.log2 + 1) * 2 ^ (52 - m.log2) :=
          Nat.mul_lt_mul_of_pos_right hnext (by positivity)
      _ = 2 ^ 53 := by rw [← pow_add]; congr 1; omega
  have hpos : 0 < m * 2 ^ (52 - m.log2) := by positivity
  have hb : IsCanonical (m * 2 ^ (52 - m.log2)) (m.log2 - 52) :=
    ⟨hbelow, by omega, by omega, .inl hfull⟩
  have hvalue : (m : ℚ) = (m * 2 ^ (52 - m.log2) : ℕ) * 2 ^ ((m.log2 : ℤ) - 52) := by
    rw [show (m.log2 : ℤ) - 52 = -((52 - m.log2 : ℕ) : ℤ) by omega, zpow_neg, zpow_natCast]
    push_cast
    field_simp
  refine ⟨⟨m * 2 ^ (52 - m.log2), m.log2 - 52⟩, hpos, hb, hfull, hvalue, ?_⟩
  -- the mantissa is shifted up to 53 bits, and there is nothing to round
  have hcompare : compare (m : ℤ) 0 = .gt := Int.compare_eq_gt.2 (by omega)
  have hexp : Format.binary64.targetExponent (totalExponent m 0) = (m.log2 : ℤ) - 52 := by
    show max ((m.log2 : ℤ) + 1 + 0 - 53) (-1074) = _
    omega
  have hexact : StandsFor (.ofMantissaAndAccuracy (m * 2 ^ (52 - m.log2)) .exact)
      ((m * 2 ^ (52 - m.log2) : ℕ) * 2 ^ ((m.log2 : ℤ) - 52) / 2 ^ ((m.log2 : ℤ) - 52)) := by
    rw [mul_div_cancel_right₀ _ (by positivity)]
    exact standsFor_exact _
  have hround := roundWithAccuracy_eq (b := ⟨m * 2 ^ (52 - m.log2), m.log2 - 52⟩) hb hpos
    (roundsTo_self hpos) .positive .exact hexact (target_of_isAligned hb.isAligned).ge (.inl hpos)
  simp only [UnpackedFloat.ofNat, UnpackedFloat.ofInt, UnpackedFloat.normalize, hcompare,
    UnpackedFloat.round, hexp, decreaseExponent, Int.toNat_natCast, Nat.shiftLeft_eq]
  rw [show (0 - ((m.log2 : ℤ) - 52)).toNat = 52 - m.log2 by omega,
    show (0 : ℤ) - ((52 - m.log2 : ℕ) : ℤ) = m.log2 - 52 by omega]
  exact hround

/-- Whether an unpacked double is `10 ^ e`, with a full significand. -/
def isPowerOfTen (e : ℕ) : UnpackedFloat → Bool
  | .finite .positive n f _ =>
    2 ^ 52 ≤ n && -52 ≤ f && n * 2 ^ (f + 52).toNat = 10 ^ e * 2 ^ 52
  | _ => false

/-- The powers of ten that are doubles are kept in a table. -/
theorem isPowerOfTen_table : ∀ e : Fin 23,
    isPowerOfTen e (Float.exactlyRepresentablePowersOfTen[e.val]).toModel.unpack = true := by
  decide +kernel

theorem exists_powerOfTen {e : ℕ} {u : UnpackedFloat} (h : isPowerOfTen e u = true) :
    ∃ (n : ℕ) (f : ℤ) (hn : 0 < n), u = .finite .positive n f hn ∧ 2 ^ 52 ≤ n ∧
      (n : ℚ) * 2 ^ f = 10 ^ e := by
  match u, h with
  | .finite .positive n f hn, h =>
      simp only [isPowerOfTen, Bool.and_eq_true, decide_eq_true_eq] at h
      obtain ⟨⟨hfull, hf⟩, hvalue⟩ := h
      refine ⟨n, f, hn, rfl, hfull, ?_⟩
      have hcast : (n : ℚ) * 2 ^ (f + 52).toNat = 10 ^ e * 2 ^ 52 := by exact_mod_cast hvalue
      have hsplit : (2 : ℚ) ^ (f + 52).toNat = 2 ^ f * 2 ^ 52 := by
        rw [← zpow_natCast, mul_comm]
        exact zpow_eq_pow_mul two_ne_zero (by omega)
      rw [hsplit, ← mul_assoc] at hcast
      exact mul_right_cancel₀ (by norm_num) hcast

/-- The value of `m · 10 ^ (± e)`. -/
def decimalValue (m : ℕ) (negative : Bool) (e : ℕ) : ℚ :=
  if negative then m / 10 ^ e else m * 10 ^ e

/-- Short decimals are a product or a quotient of two doubles. -/
theorem ofScientific_short {negative : Bool} {e : ℕ} (hb : IsCanonical b.significand b.exponent)
    (hpos : 0 < b.significand) (hv : RoundsTo b (decimalValue m negative e)) (hm : 0 < m)
    (hshort : m < 2 ^ 53 ∧ e ≤ 22) :
    Float.ofScientific m negative e =
      Float.ofModel (.pack (.finite .positive b.significand b.exponent hpos)) := by
  -- both operands are exact, so only the one operation rounds
  obtain ⟨c, hc, hcanonical, hfull, hvalue, hofNat⟩ := ofNat_eq hm hshort.1
  have hfactor : (m.toUInt64.toFloat).toModel.unpack =
      .finite .positive c.significand c.exponent hc := by
    have hsize : m.toUInt64.toNat = m := by
      show m % 2 ^ 64 = m
      omega
    have hmodel : (m.toUInt64.toFloat).toModel =
        .pack (UnpackedFloat.ofNat Format.binary64 m.toUInt64.toNat) := rfl
    rw [hmodel, hsize, hofNat]
    exact unpack_pack_finite .positive hc hcanonical
  have htable := isPowerOfTen_table ⟨e, by omega⟩
  obtain ⟨n, f, hn, hpower, hnfull, hten⟩ := exists_powerOfTen htable
  unfold Float.ofScientific
  rw [dif_pos hshort]
  cases negative with
  | true =>
      rw [decimalValue, if_pos rfl, hvalue, ← hten] at hv
      have hdiv := div_eq hb hpos hv hc hn rfl
      rw [← hfactor, ← hpower] at hdiv
      simp only [if_true]
      exact congrArg (fun u => Float.ofModel (.pack u)) hdiv
  | false =>
      rw [decimalValue, if_neg (by decide), hvalue, ← hten] at hv
      have hbits : 2 ^ 52 ≤ c.significand * n := le_trans hfull (Nat.le_mul_of_pos_right _ hn)
      have hmul := mul_eq hb hpos hv hc hn hbits rfl
      rw [← hfactor, ← hpower] at hmul
      simp only [Bool.false_eq_true, if_false]
      exact congrArg (fun u => Float.ofModel (.pack u)) hmul

/-- Any other decimal that is neither far too large nor far too small is a product or a quotient of
long mantissas. -/
theorem ofScientific_cases {e : ℤ} (hm : 0 < m) (hlarge : e ≤ 2048)
    (hsmall : -(2048 + m.log2) ≤ e) :
    UnpackedFloat.ofScientific Format.binary64 m e =
      if 0 ≤ e then
        UnpackedFloat.mul Format.binary64
          (.finite .positive (m * 2 ^ 53) (-53) (Nat.mul_pos hm (Nat.two_pow_pos 53)))
          (.finite .positive (10 ^ e.toNat) 0 (Nat.pow_pos (Nat.zero_lt_succ 9)))
      else
        UnpackedFloat.div Format.binary64 (.finite .positive m 0 hm)
          (.finite .positive (10 ^ (-e).toNat) 0 (Nat.pow_pos (Nat.zero_lt_succ 9))) := by
  have hbits : (2 ^ Format.binary64.exponentBits : ℤ) = 2048 := by norm_num
  unfold UnpackedFloat.ofScientific
  rw [dif_neg hm.ne', hbits, if_neg (by omega), if_neg (by omega)]
  simp only [Nat.shiftLeft_eq]
  rfl

/-- Powers of ten grow at least as fast as every third power of two. -/
theorem two_zpow_le_ten_zpow {k : ℤ} (hk : 0 ≤ k) : (2 : ℚ) ^ (3 * k) ≤ 10 ^ k := by
  rw [zpow_mul]
  exact zpow_le_zpow_left₀ hk (by norm_num) (by norm_num)

/-- A decimal that is settled at once lies beyond all doubles. -/
theorem exponent_le {e : ℤ} (hm : 0 < m) (hhigh : (m : ℚ) * 10 ^ e < 2 ^ (1024 : ℤ)) :
    e ≤ 2048 := by
  by_contra hlarge
  have hone : (1 : ℚ) ≤ m := by exact_mod_cast hm
  have hbeyond : (2 : ℚ) ^ (1024 : ℤ) ≤ m * 10 ^ e :=
    calc (2 : ℚ) ^ (1024 : ℤ) ≤ 2 ^ (3 * e) := zpow_le_zpow_right₀ (by norm_num) (by omega)
      _ ≤ 10 ^ e := two_zpow_le_ten_zpow (by omega)
      _ ≤ m * 10 ^ e := le_mul_of_one_le_left (by positivity) hone
  linarith

/-- Or it lies below all of them. -/
theorem le_exponent {e : ℤ} (hlow : (2 : ℚ) ^ (-1075 : ℤ) ≤ m * 10 ^ e) :
    -(2048 + m.log2) ≤ e := by
  by_contra hsmall
  have hmlog : (m : ℚ) < 2 ^ ((m.log2 : ℤ) + 1) := by
    exact_mod_cast (Nat.lt_log2_self : m < 2 ^ (m.log2 + 1))
  have hpow : (10 : ℚ) ^ e ≤ 2 ^ (3 * e) := by
    have hinv := inv_anti₀ (by positivity) (two_zpow_le_ten_zpow (k := -e) (by omega))
    rwa [← zpow_neg, ← zpow_neg, neg_neg, show -(3 * -e) = 3 * e by ring] at hinv
  have hbelow : (m : ℚ) * 10 ^ e < 2 ^ (-1075 : ℤ) :=
    calc (m : ℚ) * 10 ^ e < 2 ^ ((m.log2 : ℤ) + 1) * 10 ^ e :=
          mul_lt_mul_of_pos_right hmlog (by positivity)
      _ ≤ 2 ^ ((m.log2 : ℤ) + 1) * 2 ^ (3 * e) :=
          mul_le_mul_of_nonneg_left hpow (by positivity)
      _ = 2 ^ ((m.log2 : ℤ) + 1 + 3 * e) := (zpow_add₀ (by norm_num) _ _).symm
      _ ≤ 2 ^ (-1075 : ℤ) := zpow_le_zpow_right₀ (by norm_num) (by omega)
  linarith

theorem ofScientific_long {e : ℤ} (hb : IsCanonical b.significand b.exponent)
    (hpos : 0 < b.significand) (hv : RoundsTo b (m * 10 ^ e)) (hm : 0 < m) :
    UnpackedFloat.ofScientific Format.binary64 m e =
      .finite .positive b.significand b.exponent hpos := by
  obtain ⟨hlow, hhigh⟩ := hv.bounds hb hpos
  rw [ofScientific_cases hm (exponent_le hm hhigh) (le_exponent hlow)]
  by_cases he : 0 ≤ e
  · rw [if_pos he]
    refine mul_eq hb hpos hv _ _ ?_ ?_
    · calc 2 ^ 52 ≤ m * 2 ^ 53 := by nlinarith
        _ ≤ m * 2 ^ 53 * 10 ^ e.toNat := Nat.le_mul_of_pos_right _ (by positivity)
    · have hten : ((10 ^ e.toNat : ℕ) : ℚ) = 10 ^ e := by
        push_cast
        rw [← zpow_natCast, Int.toNat_of_nonneg he]
      have hunit : (2 : ℚ) ^ 53 * 2 ^ (-53 : ℤ) = 1 := by norm_num
      calc (m : ℚ) * 10 ^ e = m * (2 ^ 53 * 2 ^ (-53 : ℤ)) * (10 ^ e * 2 ^ (0 : ℤ)) := by
            rw [hunit, zpow_zero, mul_one, mul_one]
        _ = (m * 2 ^ 53 : ℕ) * 2 ^ (-53 : ℤ) * ((10 ^ e.toNat : ℕ) * 2 ^ (0 : ℤ)) := by
            rw [hten, Nat.cast_mul, Nat.cast_pow, Nat.cast_ofNat]
            ring
  · rw [if_neg he]
    refine div_eq hb hpos hv _ _ ?_
    have hten : ((10 ^ (-e).toNat : ℕ) : ℚ) = (10 ^ e)⁻¹ := by
      push_cast
      rw [← zpow_natCast, Int.toNat_of_nonneg (by omega), zpow_neg]
    rw [hten, zpow_zero, mul_one, mul_one, div_inv_eq_mul]

theorem ofScientific_eq {negative : Bool} {e : ℕ} (hb : IsCanonical b.significand b.exponent)
    (hpos : 0 < b.significand) (hv : RoundsTo b (decimalValue m negative e)) (hm : 0 < m) :
    Float.ofScientific m negative e =
      Float.ofModel (.pack (.finite .positive b.significand b.exponent hpos)) := by
  by_cases hshort : m < 2 ^ 53 ∧ e ≤ 22
  · exact ofScientific_short hb hpos hv hm hshort
  · unfold Float.ofScientific
    rw [dif_neg hshort]
    have hvalue : ∀ k : ℤ, decimalValue m negative e = m * 10 ^ k →
        UnpackedFloat.ofScientific Format.binary64 m k =
          .finite .positive b.significand b.exponent hpos := by
      intro k hk
      rw [hk] at hv
      exact ofScientific_long hb hpos hv hm
    cases negative with
    | true =>
        have hlong := hvalue (Int.negOfNat e) (by
          rw [decimalValue, if_pos rfl, Int.negOfNat_eq, Int.ofNat_eq_natCast, zpow_neg,
            zpow_natCast, div_eq_mul_inv])
        exact congrArg (fun u => Float.ofModel (.pack u)) hlong
    | false =>
        have hlong := hvalue (Int.ofNat e) (by
          rw [decimalValue, if_neg (by decide), Int.ofNat_eq_natCast, zpow_natCast])
        exact congrArg (fun u => Float.ofModel (.pack u)) hlong

theorem decimalValue_natAbs (m : ℕ) (k : ℤ) :
    decimalValue m (decide (k < 0)) k.natAbs = m * 10 ^ k := by
  unfold decimalValue
  by_cases hk : k < 0
  · rw [if_pos (by simpa using hk), div_eq_mul_inv, ← zpow_natCast, ← zpow_neg]
    congr 2
    omega
  · rw [if_neg (by simpa using hk), ← zpow_natCast]
    congr 2
    omega

theorem two_pow_le_ten_pow : (2 : ℚ) ^ (1024 : ℤ) ≤ 10 ^ (309 : ℤ) := by
  have h : 2 ^ 1024 ≤ 10 ^ 309 := by decide +kernel
  exact_mod_cast h

theorem ten_pow_le_two_pow : (10 : ℚ) ^ (-330 : ℤ) ≤ 2 ^ (-1075 : ℤ) := by
  have h : 2 ^ 1075 ≤ 10 ^ 330 := by decide +kernel
  rw [zpow_neg, zpow_neg]
  exact inv_anti₀ (by positivity) (by exact_mod_cast h)

/-- A decimal in the interval of a double has its point where doubles have theirs. -/
theorem point_bounds {k : ℤ} (hb : IsCanonical b.significand b.exponent)
    (hpos : 0 < b.significand) (hv : RoundsTo b (m * 10 ^ k)) (hm : 0 < m) :
    ((Decimal.numeral m).length : ℤ) + k ≤ 309 ∧ -330 ≤ ((Decimal.numeral m).length : ℤ) + k := by
  obtain ⟨hlow, hhigh⟩ := hv.bounds hb hpos
  have hlength := List.length_pos_iff.2 (Decimal.numeral_ne_nil m)
  constructor
  · have hle : (10 : ℚ) ^ (((Decimal.numeral m).length : ℤ) + k - 1) < 10 ^ (309 : ℤ) :=
      calc (10 : ℚ) ^ (((Decimal.numeral m).length : ℤ) + k - 1)
          = 10 ^ ((Decimal.numeral m).length - 1) * 10 ^ k := by
            exact zpow_eq_pow_mul (by norm_num) (by omega)
        _ ≤ m * 10 ^ k := by
            refine mul_le_mul_of_nonneg_right ?_ (by positivity)
            exact_mod_cast Decimal.pow_length_numeral_le hm
        _ < 2 ^ (1024 : ℤ) := hhigh
        _ ≤ 10 ^ (309 : ℤ) := two_pow_le_ten_pow
    have := (zpow_lt_zpow_iff_right₀ (by norm_num)).1 hle
    omega
  · have hlt : (10 : ℚ) ^ (-330 : ℤ) < 10 ^ (((Decimal.numeral m).length : ℤ) + k) :=
      calc (10 : ℚ) ^ (-330 : ℤ) ≤ 2 ^ (-1075 : ℤ) := ten_pow_le_two_pow
        _ ≤ m * 10 ^ k := hlow
        _ < 10 ^ (Decimal.numeral m).length * 10 ^ k := by
            refine mul_lt_mul_of_pos_right ?_ (by positivity)
            exact_mod_cast Decimal.lt_pow_length_numeral m
        _ = 10 ^ (((Decimal.numeral m).length : ℤ) + k) := by
            exact (zpow_eq_pow_mul (by norm_num) (by ring)).symm
    exact ((zpow_lt_zpow_iff_right₀ (by norm_num)).1 hlt).le

/-- **Reading into an interval.** A decimal in the interval of a positive double is read as that
double. -/
theorem nearest_eq {k : ℤ} (hb : IsCanonical b.significand b.exponent)
    (hpos : 0 < b.significand) (hv : RoundsTo b (m * 10 ^ k)) (hm : 0 < m) :
    Decimal.nearest m k =
      Float.ofModel (.pack (.finite .positive b.significand b.exponent hpos)) := by
  obtain ⟨hhigh, hlow⟩ := point_bounds hb hpos hv hm
  unfold Decimal.nearest
  rw [if_neg hm.ne']
  dsimp only
  rw [if_neg (by omega), if_neg (by omega)]
  rw [← decimalValue_natAbs] at hv
  exact ofScientific_eq hb hpos hv hm

end Decimals

end GrowthGrammar.Double
