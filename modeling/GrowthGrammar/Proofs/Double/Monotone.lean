import GrowthGrammar.Proofs.Double.Order
import GrowthGrammar.Proofs.Double.Rounding

/-!
# Rounding keeps the order

Sums and products of weights are computed exactly and then rounded. Rounding never reverses an
order (`Rounds.mono`), also not where two numbers are rounded at different exponents: a power of two
lies between them. So a sum is at least its first term (`le_sum`), and a product with a factor of at
most one is at most the other factor (`product_le_right`).
-/

set_option autoImplicit false

namespace GrowthGrammar.Double

open Float.Model Float.Model.UnpackedFloat

/-! ## Rounding as a relation -/

/-- An exponent at which a number is rounded: the number has 53 bits there, or fewer if it is the
least exponent. -/
structure IsTarget (v : ℚ) (t : ℤ) : Prop where
  min_le : -1074 ≤ t
  lt : v < 2 ^ (t + 53)
  full : 2 ^ (t + 52) ≤ v ∨ t = -1074

/-- What a number is rounded to, however great. -/
def Rounds (v q : ℚ) : Prop :=
  ∃ (t : ℤ) (n : ℕ), IsTarget v t ∧ IsNear n (v / 2 ^ t) ∧ q = n * 2 ^ t

section Relation

variable {m n : ℕ} {p q v w : ℚ} {t : ℤ}

theorem isNear_natCast (n : ℕ) : IsNear n n :=
  ⟨by linarith, by linarith, fun _ => ⟨by linarith, by linarith⟩⟩

theorem IsAligned.isTarget (h : IsAligned n t) : IsTarget (n * 2 ^ t) t := by
  obtain ⟨hlt, hmin, hfull⟩ := h
  refine ⟨hmin, ?_, hfull.imp_left fun hfull => ?_⟩
  · have hcast : (n : ℚ) < 2 ^ 53 := by exact_mod_cast hlt
    calc (n : ℚ) * 2 ^ t < 2 ^ 53 * 2 ^ t := mul_lt_mul_of_pos_right hcast (by positivity)
      _ = 2 ^ (t + 53) := (zpow_eq_pow_mul two_ne_zero rfl).symm
  · have hcast : (2 : ℚ) ^ 52 ≤ n := by exact_mod_cast hfull
    calc (2 : ℚ) ^ (t + 52) = 2 ^ 52 * 2 ^ t := zpow_eq_pow_mul two_ne_zero rfl
      _ ≤ n * 2 ^ t := mul_le_mul_of_nonneg_right hcast (by positivity)

/-- Of two neighbours one is odd, and ties do not go to it. -/
theorem IsNear.mono (hm : IsNear m p) (hn : IsNear n q) (hle : p ≤ q) : m ≤ n := by
  by_contra hlt
  have hnext : n + 1 ≤ m := by omega
  have hcast : (n : ℚ) + 1 ≤ m := by exact_mod_cast hnext
  have hlow := hm.le
  have hhigh := hn.ge
  -- both lie in the middle between n and n + 1
  have hmid : (m : ℚ) = n + 1 := by linarith
  have hsucc : m = n + 1 := by exact_mod_cast hmid
  rcases Nat.mod_two_eq_zero_or_one n with hparity | hparity
  · have hodd := (hm.odd (by omega)).1
    linarith
  · have hodd := (hn.odd hparity).2
    linarith

theorem IsTarget.le_of_isNear (ht : IsTarget v t) (hn : IsNear n (v / 2 ^ t)) : n ≤ 2 ^ 53 := by
  have hunit : (0 : ℚ) < 2 ^ t := by positivity
  have hlt : v / 2 ^ t < 2 ^ 53 := by
    rw [div_lt_iff₀ hunit]
    calc v < 2 ^ (t + 53) := ht.lt
      _ = 2 ^ 53 * 2 ^ t := zpow_eq_pow_mul two_ne_zero rfl
  have hlow := hn.le
  have hcast : (n : ℚ) < ((2 ^ 53 + 1 : ℕ) : ℚ) := by
    push_cast
    linarith
  have : n < 2 ^ 53 + 1 := by exact_mod_cast hcast
  omega

theorem IsTarget.full_of_isNear (ht : IsTarget v t) (hn : IsNear n (v / 2 ^ t)) :
    2 ^ 52 ≤ n ∨ t = -1074 := by
  refine ht.full.imp_left fun hfull => ?_
  have hunit : (0 : ℚ) < 2 ^ t := by positivity
  have hle : 2 ^ 52 ≤ v / 2 ^ t := by
    rw [le_div_iff₀ hunit]
    calc (2 : ℚ) ^ 52 * 2 ^ t = 2 ^ (t + 52) := (zpow_eq_pow_mul two_ne_zero rfl).symm
      _ ≤ v := hfull
  have hhigh := hn.ge
  have hcast : ((2 ^ 52 : ℕ) : ℚ) < n + 1 := by
    push_cast
    linarith
  have : 2 ^ 52 < n + 1 := by exact_mod_cast hcast
  omega

/-- Numbers with different targets have a power of two between them, and so has what they are
rounded to. -/
theorem IsTarget.value_le {s : ℤ} (ht : IsTarget v t) (hn : IsNear n (v / 2 ^ t))
    (hs : IsTarget w s) (hm : IsNear m (w / 2 ^ s)) (hlt : t < s) :
    (n : ℚ) * 2 ^ t ≤ m * 2 ^ s := by
  have hsmall : (n : ℚ) ≤ 2 ^ 53 := by exact_mod_cast ht.le_of_isNear hn
  have hlarge : (2 : ℚ) ^ 52 ≤ m := by
    have hmin := ht.min_le
    exact_mod_cast (hs.full_of_isNear hm).resolve_right (by omega)
  calc (n : ℚ) * 2 ^ t ≤ 2 ^ 53 * 2 ^ t := mul_le_mul_of_nonneg_right hsmall (by positivity)
    _ ≤ 2 ^ 52 * 2 ^ s := two_pow_mul_le hlt
    _ ≤ m * 2 ^ s := mul_le_mul_of_nonneg_right hlarge (by positivity)

/-- A number is never rounded to more than a greater one is. -/
theorem Rounds.mono {r : ℚ} (hv : Rounds v q) (hw : Rounds w r) (hle : v ≤ w) : q ≤ r := by
  obtain ⟨t, n, ht, hn, rfl⟩ := hv
  obtain ⟨s, m, hs, hm, rfl⟩ := hw
  rcases lt_trichotomy t s with h | rfl | h
  · exact ht.value_le hn hs hm h
  · have hunit : (0 : ℚ) < 2 ^ t := by positivity
    have hnm : n ≤ m := hn.mono hm (div_le_div_of_nonneg_right hle hunit.le)
    exact mul_le_mul_of_nonneg_right (by exact_mod_cast hnm) hunit.le
  · -- the greater number would lie below the smaller one
    have hfull : 2 ^ (t + 52) ≤ v := by
      have hmin := hs.min_le
      exact ht.full.resolve_right (by omega)
    have hpow : (2 : ℚ) ^ (s + 53) ≤ 2 ^ (t + 52) :=
      zpow_le_zpow_right₀ (by norm_num) (by omega)
    have hlt := hs.lt
    linarith

end Relation

/-! ## What is rounded -/

/-- The number that an unpacked form stands for, if it is not below zero. The exponent may be too
great for a double. -/
inductive Represents : UnpackedFloat → ℚ → Prop where
  | zero (s : Sign) : Represents (.zero s) 0
  | finite {n : ℕ} {t : ℤ} (hn : 0 < n) (aligned : IsAligned n t) :
      Represents (.finite .positive n t hn) (n * 2 ^ t)

section Rounding

variable {v : ℚ} {m : ℕ} {e : ℤ} {accuracy : Accuracy}

theorem isNear_of_lt {n : ℕ} {q : ℚ} (hlow : (n : ℚ) - 1 / 2 < q) (hhigh : q < n + 1 / 2) :
    IsNear n q :=
  ⟨hlow.le, hhigh.le, fun _ => ⟨hlow, hhigh⟩⟩

/-- A mantissa is rounded to a whole number next to what it stands for. -/
theorem StandsFor.isNear {em : ExtendedMantissa} {q : ℚ} (h : StandsFor em q) :
    IsNear em.roundedMantissa q := by
  obtain ⟨m, round, sticky⟩ := em
  cases round <;> cases sticky <;> simp only [StandsFor] at h
  · show IsNear m q
    rw [h]
    exact isNear_natCast m
  · show IsNear m q
    exact isNear_of_lt (by linarith) (by linarith)
  · show IsNear (m + m % 2) q
    rw [h]
    -- the middle goes to the even neighbour
    rcases Nat.mod_two_eq_zero_or_one m with hparity | hparity
    · rw [hparity, Nat.add_zero]
      exact ⟨by linarith, le_rfl, by omega⟩
    · rw [hparity]
      refine ⟨?_, ?_, by omega⟩ <;> push_cast <;> linarith
  · show IsNear (m + 1) q
    refine isNear_of_lt ?_ ?_ <;> push_cast <;> linarith

theorem isTarget_of_standsFor (h : StandsFor (.ofMantissaAndAccuracy m accuracy) (v / 2 ^ e))
    (hm : 0 < m ∨ e ≤ -1022) : IsTarget v (target m e) := by
  refine ⟨min_le_target m e, lt_of_standsFor h, ?_⟩
  rcases (min_le_target m e).lt_or_eq with hlt | heq
  · exact .inl (le_of_standsFor h hm hlt)
  · exact .inr heq.symm

/-- A mantissa that has not been shifted beyond its target is rounded as the number that it stands
for. -/
theorem exists_roundWithAccuracy
    (h : StandsFor (.ofMantissaAndAccuracy m accuracy) (v / 2 ^ e)) (he : e ≤ target m e)
    (hm : 0 < m ∨ e ≤ -1022) :
    ∃ q, Rounds v q ∧
      Represents (roundWithAccuracy Format.binary64 .positive m e accuracy) q := by
  have ht := isTarget_of_standsFor h hm
  have hfirst := shiftToTargetExponent_eq accuracy he
  have hnear := (h.shiftToTarget he).isNear
  generalize ExtendedMantissa.ofMantissaAndAccuracy m accuracy >>> (target m e - e).toNat = em
    at hfirst hnear
  refine ⟨_, ⟨_, _, ht, hnear, rfl⟩, ?_⟩
  rcases (ht.le_of_isNear hnear).lt_or_eq with hlt | hcarry
  -- the second shift leaves a mantissa that fits
  · have haligned : IsAligned em.roundedMantissa (target m e) :=
      ⟨hlt, ht.min_le, ht.full_of_isNear hnear⟩
    have hsame := target_of_isAligned haligned
    have hnext := shiftToTargetExponent_eq .exact hsame.ge
    rw [hsame, Int.sub_self] at hnext
    rcases Nat.eq_zero_or_pos em.roundedMantissa with hzero | hpos
    · rw [hzero, Nat.cast_zero, zero_mul]
      unfold roundWithAccuracy
      simp only [hfirst, hnext]
      rw [dif_pos (by rw [hzero]; rfl)]
      exact .zero _
    · rw [roundWithAccuracy_of_shift hfirst hnext (mantissa_ofMantissaAndAccuracy _ .exact) hpos]
      exact .finite hpos haligned
  -- one bit more than fits is shifted back
  · have hnext := shiftToTargetExponent_carry ht.min_le
    rw [← hcarry] at hnext
    have hvalue : ((2 ^ 53 : ℕ) : ℚ) * 2 ^ target m e =
        (2 ^ 52 : ℕ) * 2 ^ (target m e + 1) := by
      rw [zpow_add_one₀ two_ne_zero]
      push_cast
      ring
    have hhalf : (ExtendedMantissa.ofMantissaAndAccuracy em.roundedMantissa .exact >>> 1).mantissa =
        2 ^ 52 := by
      rw [hcarry]
      exact mantissa_of_carry
    rw [roundWithAccuracy_of_shift hfirst hnext hhalf (by norm_num), hcarry, hvalue]
    exact .finite _ ⟨by norm_num, by have := ht.min_le; omega, .inl le_rfl⟩

end Rounding

/-! ## Rounded doubles -/

/-- The double that a number is rounded to: a weight, or none that is finite if the number is out of
range. -/
def IsRounded (v : ℚ) (x : Float) : Prop :=
  ∃ q, Rounds v q ∧
    (isWeight x = true ∧ magnitude x = q ∨ x.isFinite = false ∧ 2 ^ (1024 : ℤ) ≤ q)

section Rounded

variable {x y : Float} {v w q : ℚ}

/-- Beyond the greatest exponent a significand is packed as an infinity. -/
theorem pack_of_overflow (s : Sign) {m : ℕ} {e : ℤ} (hm : 0 < m) (he : 971 < e) :
    UnpackedFloat.pack Format.binary64 (.finite s m e hm) =
      packedInfinity Format.binary64 s := by
  unfold UnpackedFloat.pack
  dsimp only
  rw [if_pos]
  show 2 ^ 11 ≤ (e + (1023 : ℕ) + (52 : ℕ)).toNat + 1
  omega

/-- Packing what represents a rounded number gives the rounded double. -/
theorem isRounded_ofModel_pack {u : UnpackedFloat} (hv : Rounds v q) (hu : Represents u q) :
    IsRounded v (.ofModel (.pack u)) := by
  refine ⟨q, hv, ?_⟩
  cases hu with
  | zero s =>
      obtain ⟨t, ht⟩ := isZero_ofModel_pack s
      exact .inl ⟨isWeight_of_unpack_zero ht, magnitude_of_unpack_zero ht⟩
  | @finite n t hn aligned =>
      by_cases hmax : t ≤ 971
      · have hform := unpack_pack_finite .positive hn (aligned.isCanonical hmax)
        exact .inl ⟨isWeight_of_unpack_finite hform, magnitude_of_unpack_finite hform⟩
      · refine .inr ⟨?_, ?_⟩
        · show (UnpackedFloat.unpack Format.binary64
            (UnpackedFloat.pack Format.binary64 (.finite .positive n t hn))).isFinite = false
          rw [pack_of_overflow .positive hn (by omega), unpack_packedInfinity]
          rfl
        · have hfull : (2 : ℚ) ^ 52 ≤ n := by
            exact_mod_cast aligned.full.resolve_right (by omega)
          calc (2 : ℚ) ^ (1024 : ℤ) = 2 ^ 53 * 2 ^ (971 : ℤ) :=
                zpow_eq_pow_mul two_ne_zero (by norm_num)
            _ ≤ 2 ^ 52 * 2 ^ t := two_pow_mul_le (by omega)
            _ ≤ n * 2 ^ t := mul_le_mul_of_nonneg_right hfull (by positivity)

/-- A weight is what its magnitude is rounded to. -/
theorem isRounded_magnitude (hx : isWeight x = true) : IsRounded (magnitude x) x := by
  have haligned := (isCanonical_of_isWeight hx).isAligned
  refine ⟨magnitude x, ⟨_, _, haligned.isTarget, ?_, rfl⟩, .inl ⟨hx, rfl⟩⟩
  rw [magnitude, mul_div_cancel_right₀ _ (by positivity)]
  exact isNear_natCast _

/-- Of two rounded numbers the smaller one is in range if the other is, and stays the smaller. -/
theorem IsRounded.magnitude_le (hv : IsRounded v x) (hw : IsRounded w y) (hle : v ≤ w)
    (hy : y.isFinite = true) : isWeight x = true ∧ magnitude x ≤ magnitude y := by
  obtain ⟨q, hq, hx⟩ := hv
  obtain ⟨r, hr, hy'⟩ := hw
  have hmono := hq.mono hr hle
  rcases hy' with ⟨-, rfl⟩ | ⟨hinf, -⟩
  · rcases hx with ⟨hx, rfl⟩ | ⟨-, hlarge⟩
    · exact ⟨hx, hmono⟩
    · have hsmall := magnitude_lt hy
      linarith
  · rw [hy] at hinf
    cases hinf

end Rounded

/-! ## Operations on weights -/

section Operations

variable {x y z : Float}

theorem log2_mul_two_pow {m : ℕ} (hm : 0 < m) (k : ℕ) : (m * 2 ^ k).log2 = m.log2 + k := by
  have hlow := Nat.log2_self_le hm.ne'
  have hhigh : m < 2 ^ (m.log2 + 1) := Nat.lt_log2_self
  rw [Nat.log2_eq_iff (by positivity)]
  constructor
  · rw [pow_add]
    exact Nat.mul_le_mul_right _ hlow
  · rw [show m.log2 + k + 1 = m.log2 + 1 + k by ring, pow_add]
    exact Nat.mul_lt_mul_of_pos_right hhigh (by positivity)

/-- A mantissa that stands for a number exactly is rounded as that number. -/
theorem isRounded_roundWithAccuracy {v : ℚ} {m : ℕ} {e : ℤ} (hm : 0 < m) (he : e ≤ target m e)
    (hv : v = m * 2 ^ e) :
    IsRounded v
      (.ofModel (.pack (roundWithAccuracy Format.binary64 .positive m e .exact))) := by
  have hexact : StandsFor (.ofMantissaAndAccuracy m .exact) (v / 2 ^ e) := by
    rw [hv, mul_div_cancel_right₀ _ (by positivity)]
    exact standsFor_exact m
  obtain ⟨q, hq, hrepresents⟩ := exists_roundWithAccuracy hexact he (.inl hm)
  exact isRounded_ofModel_pack hq hrepresents

/-- Before it is rounded a mantissa is brought to its target also where it has to gain bits. -/
theorem isRounded_round {m : ℕ} (hm : 0 < m) (e : ℤ) :
    IsRounded (m * 2 ^ e)
      (.ofModel (.pack (UnpackedFloat.round Format.binary64 .positive m e))) := by
  obtain ⟨k, hk⟩ : ∃ k, k = (e - target m e).toNat := ⟨_, rfl⟩
  have htarget : target (m * 2 ^ k) (e - k) = target m e := by
    unfold target
    rw [log2_mul_two_pow hm]
    congr 1
    push_cast
    ring
  have hround : UnpackedFloat.round Format.binary64 .positive m e =
      roundWithAccuracy Format.binary64 .positive (m * 2 ^ k) (e - k) .exact := by
    rw [hk, ← Nat.shiftLeft_eq]
    rfl
  have hvalue : (m : ℚ) * 2 ^ e = (m * 2 ^ k : ℕ) * 2 ^ (e - k) := by
    rw [zpow_eq_pow_mul (k := k) two_ne_zero (sub_add_cancel e (k : ℤ)).symm]
    push_cast
    ring
  rw [hround]
  exact isRounded_roundWithAccuracy (by positivity) (by omega) hvalue

theorem isRounded_of_isZero (hx : IsZero x) : IsRounded 0 x := by
  obtain ⟨s, hs⟩ := hx
  rw [← magnitude_of_unpack_zero hs]
  exact isRounded_magnitude (isWeight_of_unpack_zero hs)

/-- Two numbers are added at the smaller one of their exponents. -/
theorem add_finite_eq {m n : ℕ} {e f : ℤ} {hm : 0 < m} {hn : 0 < n} :
    UnpackedFloat.add Format.binary64 (.finite .positive m e hm) (.finite .positive n f hn) =
      UnpackedFloat.round Format.binary64 .positive
        (m * 2 ^ (e - min e f).toNat + n * 2 ^ (f - min e f).toNat) (min e f) := by
  have hpos : 0 < m * 2 ^ (e - min e f).toNat + n * 2 ^ (f - min e f).toNat := by positivity
  have hcompare : compare (((m * 2 ^ (e - min e f).toNat : ℕ) : ℤ) +
      (n * 2 ^ (f - min e f).toNat : ℕ)) 0 = .gt := Int.compare_eq_gt.2 (by omega)
  simp only [UnpackedFloat.add, UnpackedFloat.normalize, decreaseExponent, Sign.apply,
    Nat.shiftLeft_eq, hcompare]
  rfl

theorem sum_at_min (m n : ℕ) (e f : ℤ) :
    ((m * 2 ^ (e - min e f).toNat + n * 2 ^ (f - min e f).toNat : ℕ) : ℚ) * 2 ^ min e f =
      m * 2 ^ e + n * 2 ^ f := by
  have hshift : ∀ {g : ℤ}, min e f ≤ g →
      (2 : ℚ) ^ (g - min e f).toNat * 2 ^ min e f = 2 ^ g := by
    intro g hg
    exact (zpow_eq_pow_mul two_ne_zero (by omega)).symm
  push_cast
  rw [add_mul, mul_assoc, mul_assoc, hshift (min_le_left e f), hshift (min_le_right e f)]

/-- A sum of weights is rounded from the sum of their magnitudes. -/
theorem isRounded_add (hx : isWeight x = true) (hy : isWeight y = true) :
    IsRounded (magnitude x + magnitude y) (x + y) := by
  rcases unpack_of_isWeight hx with ⟨s, hs⟩ | ⟨hm, hxform⟩
  · rw [magnitude_of_unpack_zero hs, zero_add]
    rcases agree_add_of_isZero ⟨s, hs⟩ y with heq | ⟨hsum, t, ht⟩
    · rw [heq]
      exact isRounded_magnitude hy
    · rw [magnitude_of_unpack_zero ht]
      exact isRounded_of_isZero hsum
  · rcases unpack_of_isWeight hy with ⟨t, ht⟩ | ⟨hn, hyform⟩
    · have hsum : x + y = x := by
        rw [add_eq, hxform, ht]
        conv_rhs => rw [← ofModel_pack_unpack x, hxform]
        rfl
      rw [hsum, magnitude_of_unpack_zero ht, add_zero]
      exact isRounded_magnitude hx
    · rw [add_eq, hxform, hyform, add_finite_eq, magnitude, magnitude, ← sum_at_min]
      exact isRounded_round (by positivity) _

theorem product_eq (x y : Float) : x * y =
    .ofModel (.pack (UnpackedFloat.mul Format.binary64 x.toModel.unpack y.toModel.unpack)) :=
  rfl

/-- The product of two significands has 53 bits, unless both of them stand at the least exponent. -/
theorem le_target_mul {m n : ℕ} {e f : ℤ} (hm : IsAligned m e) (hn : IsAligned n f) (hmpos : 0 < m)
    (hnpos : 0 < n) : e + f ≤ target (m * n) (e + f) := by
  have hbits : 2 ^ 52 ≤ m * n → e + f ≤ target (m * n) (e + f) := by
    intro hle
    have hlog : 52 ≤ (m * n).log2 := (Nat.le_log2 (by positivity)).2 hle
    unfold target
    omega
  rcases hm.full with hfull | he
  · exact hbits (hfull.trans (Nat.le_mul_of_pos_right m hnpos))
  · rcases hn.full with hfull | hf
    · exact hbits (hfull.trans (Nat.le_mul_of_pos_left n hmpos))
    · have hmin := min_le_target (m * n) (e + f)
      omega

/-- A product of weights is rounded from the product of their magnitudes. -/
theorem isRounded_mul (hx : isWeight x = true) (hy : isWeight y = true) :
    IsRounded (magnitude x * magnitude y) (x * y) := by
  rw [product_eq]
  rcases unpack_of_isWeight hx with ⟨s, hs⟩ | ⟨hm, hxform⟩
  · rw [magnitude_of_unpack_zero hs, zero_mul, hs]
    rcases unpack_of_isWeight hy with ⟨t, ht⟩ | ⟨hn, hyform⟩
    · rw [ht]
      exact isRounded_of_isZero (isZero_ofModel_pack _)
    · rw [hyform]
      exact isRounded_of_isZero (isZero_ofModel_pack _)
  · rcases unpack_of_isWeight hy with ⟨t, ht⟩ | ⟨hn, hyform⟩
    · rw [magnitude_of_unpack_zero ht, mul_zero, hxform, ht]
      exact isRounded_of_isZero (isZero_ofModel_pack _)
    · have hxaligned := (isCanonical_of_isWeight hx).isAligned
      have hyaligned := (isCanonical_of_isWeight hy).isAligned
      rw [hxform, hyform]
      refine isRounded_roundWithAccuracy (by positivity)
        (le_target_mul hxaligned hyaligned hm hn) ?_
      rw [magnitude, magnitude, zpow_add₀ two_ne_zero]
      push_cast
      ring

/-! ## Order under operations -/

/-- A sum of weights is at least its first term, and no more than it if the second is zero. -/
theorem le_sum (hx : isWeight x = true) (hy : isWeight y = true)
    (hsum : (x + y).isFinite = true) :
    isWeight (x + y) = true ∧ magnitude x ≤ magnitude (x + y) ∧
      (magnitude y = 0 → magnitude (x + y) = magnitude x) := by
  have hself := isRounded_magnitude hx
  have hrounded := isRounded_add hx hy
  obtain ⟨-, hle⟩ := hself.magnitude_le hrounded
    (le_add_of_nonneg_right (magnitude_nonneg y)) hsum
  refine ⟨(hrounded.magnitude_le hrounded le_rfl hsum).1, hle, fun hzero => ?_⟩
  rw [hzero, add_zero] at hrounded
  exact le_antisymm (hrounded.magnitude_le hself le_rfl (isFinite_of_isWeight hx)).2 hle

/-- A product with a factor of at most one is at most the other factor. -/
theorem product_le_right (hx : isWeight x = true) (hz : isWeight z = true)
    (hle : magnitude x ≤ 1) : isWeight (x * z) = true ∧ magnitude (x * z) ≤ magnitude z :=
  (isRounded_mul hx hz).magnitude_le (isRounded_magnitude hz)
    (mul_le_of_le_one_left (magnitude_nonneg z) hle) (isFinite_of_isWeight hz)

end Operations

end GrowthGrammar.Double
