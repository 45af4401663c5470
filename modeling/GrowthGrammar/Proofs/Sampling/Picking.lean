import GrowthGrammar.Proofs.Derivation.Nesting
import GrowthGrammar.Proofs.Double.Finite
import GrowthGrammar.Proofs.Production.Validity
import GrowthGrammar.Proofs.Sampling.Draw
import GrowthGrammar.Proofs.Sampling.Reliability

/-!
# What is picked carries weight

The partial sums of weights never fall, and they rise only at a positive weight. The draw lies below
the last of them, so the first one above it was reached by a positive weight, and that is the one
picked (`seeded_picks_weight`). No rule puts an alternative without weight.
-/

set_option autoImplicit false

namespace GrowthGrammar.Sampler

open Double

/-! ## Partial sums -/

section Sums

variable {sum value weight : Float} {rest weights : List Float}

theorem isFinite_of_foldl (h : (weights.foldl (· + ·) sum).isFinite = true) :
    sum.isFinite = true := by
  induction weights generalizing sum with
  | nil => exact h
  | cons weight rest ih => exact (isFinite_of_sum (ih h)).1

theorem isWeight_foldl (hsum : isWeight sum = true)
    (hweights : ∀ weight ∈ weights, isWeight weight = true)
    (hfinite : (weights.foldl (· + ·) sum).isFinite = true) :
    isWeight (weights.foldl (· + ·) sum) = true := by
  induction weights generalizing sum with
  | nil => exact hsum
  | cons weight rest ih =>
      obtain ⟨hweight, hrest⟩ := List.forall_mem_cons.1 hweights
      exact ih (le_sum hsum hweight (isFinite_of_foldl hfinite)).1 hrest hfinite

theorem magnitude_zero : magnitude 0 = 0 :=
  magnitude_of_unpack_zero zero_unpack

theorem isWeight_zero : isWeight 0 = true :=
  isWeight_of_unpack_zero zero_unpack

theorem pos_iff_magnitude (hweight : isWeight weight = true) :
    0 < weight ↔ 0 < magnitude weight := by
  rw [lt_iff_magnitude isWeight_zero hweight, magnitude_zero]

/-- A weight at which a sum rises is positive. -/
theorem pos_of_sum_lt (hsum : isWeight sum = true) (hweight : isWeight weight = true)
    (hfinite : (sum + weight).isFinite = true) (hlt : magnitude sum < magnitude (sum + weight)) :
    0 < weight := by
  rw [pos_iff_magnitude hweight]
  refine lt_of_le_of_ne (magnitude_nonneg weight) fun hzero => ?_
  rw [(le_sum hsum hweight hfinite).2.2 hzero.symm] at hlt
  exact lt_irrefl _ hlt

/-- Counting the partial sums that a value below the last one reaches leads to a positive weight. The
induction is on the weights that are still to be added, for any sum so far: a value below the sum so
far reaches none of the partial sums. -/
theorem countP_partialSums (hvalue : isWeight value = true) (hsum : isWeight sum = true)
    (hrest : ∀ weight ∈ rest, isWeight weight = true)
    (hfinite : (rest.foldl (· + ·) sum).isFinite = true) :
    (magnitude value < magnitude sum →
      (partialSums sum rest).1.countP (fun sum => sum ≤ value) = 0) ∧
    (magnitude sum ≤ magnitude value →
      magnitude value < magnitude (rest.foldl (· + ·) sum) →
        ∃ j weight, (partialSums sum rest).1.countP (fun sum => sum ≤ value) = j + 1 ∧
          rest[j]? = some weight ∧ 0 < weight) := by
  induction rest generalizing sum with
  | nil =>
      refine ⟨fun _ => rfl, fun hle hlt => ?_⟩
      exact absurd hlt (not_lt.2 hle)
  | cons weight rest ih =>
      obtain ⟨hweight, hrest⟩ := List.forall_mem_cons.1 hrest
      have hnext : (sum + weight).isFinite = true := isFinite_of_foldl hfinite
      obtain ⟨hnextweight, hrises, -⟩ := le_sum hsum hweight hnext
      obtain ⟨hbelow, habove⟩ := ih hnextweight hrest hfinite
      have hcount : (partialSums sum (weight :: rest)).1.countP (fun sum => sum ≤ value) =
          (partialSums (sum + weight) rest).1.countP (fun sum => sum ≤ value) +
            if magnitude sum ≤ magnitude value then 1 else 0 := by
        rw [partialSums, List.countP_cons]
        simp only [decide_eq_true_eq, le_iff_magnitude hsum hvalue]
      rw [hcount]
      refine ⟨fun hlt => ?_, fun hle hlt => ?_⟩
      · rw [hbelow (hlt.trans_le hrises), if_neg (not_le.2 hlt)]
      · rw [if_pos hle]
        by_cases hreached : magnitude (sum + weight) ≤ magnitude value
        · obtain ⟨j, found, hj, hfound, hpos⟩ := habove hreached hlt
          exact ⟨j + 1, found, by rw [hj], hfound, hpos⟩
        · have hlast := not_le.1 hreached
          refine ⟨0, weight, by rw [hbelow hlast], rfl, ?_⟩
          exact pos_of_sum_lt hsum hweight hnext (hle.trans_lt hlast)

end Sums

/-! ## Picks -/

section Picks

variable {x y : Float} {weights : List Float}

theorem eq_of_agree (hpos : 0 < magnitude x) (h : Agree x y) : x = y := by
  rcases h with rfl | ⟨⟨s, hs⟩, -⟩
  · rfl
  · rw [magnitude_of_unpack_zero hs] at hpos
    exact absurd hpos (lt_irrefl _)

/-- Weights that can be drawn by have a positive one picked. -/
theorem exists_pos_of_isDrawable (seed : String) (h : IsDrawable weights) :
    ∃ i weight, seeded seed weights = .ok i ∧ weights[i]? = some weight ∧ 0 < weight := by
  cases weights with
  | nil => exact absurd rfl h.nonempty
  | cons first rest =>
      obtain ⟨hfirst, hrest⟩ := List.forall_mem_cons.1 h.isWeight_of_mem
      have htotal : isWeight ((first :: rest).foldl (· + ·) 0) = true :=
        isWeight_foldl isWeight_zero h.isWeight_of_mem h.finite
      have hpos := (pos_iff_magnitude htotal).1 h.pos
      -- the draw is for the sum from the first weight on, which is the same
      have hsame : (first :: rest).foldl (· + ·) 0 = rest.foldl (· + ·) first :=
        eq_of_agree hpos (agree_foldl_cons first rest)
      obtain ⟨hvalue, hlt⟩ := draw_lt seed htotal hpos
      obtain ⟨hbelow, habove⟩ := countP_partialSums hvalue hfirst hrest (hsame ▸ h.finite)
      have hpick := seeded_eq_ok seed h
      rw [(partialSums_eq first rest).2, ← hsame] at hpick
      rcases lt_or_ge (magnitude (draw seed ((first :: rest).foldl (· + ·) 0)))
        (magnitude first) with hless | hreached
      · rw [hbelow hless] at hpick
        exact ⟨0, first, hpick, rfl,
          (pos_iff_magnitude hfirst).2 ((magnitude_nonneg _).trans_lt hless)⟩
      · obtain ⟨j, weight, hj, hweight, hweightpos⟩ := habove hreached (hsame ▸ hlt)
        rw [hj] at hpick
        exact ⟨j + 1, weight, hpick, hweight, hweightpos⟩

theorem isWeight_eq_false_iff : isWeight x = false ↔ x.isFinite = false ∨ x < 0 := by
  simp only [isWeight, Bool.and_eq_false_iff, Bool.not_eq_false', decide_eq_true_eq]

theorem isZero_iff_of_agree (h : Agree x y) : IsZero x ↔ IsZero y := by
  rcases h with rfl | ⟨hx, hy⟩
  · exact Iff.rfl
  · exact iff_of_true hx hy

/-- The sampler fails for no weights, for a weight that cannot be drawn by, and for a sum of zero. -/
theorem exists_error_iff (seed : String) :
    (∃ cause, seeded seed weights = .error cause) ↔
      weights = [] ∨ (∃ weight ∈ weights, isWeight weight = false) ∨
        (weights.foldl (· + ·) 0 == 0) = true := by
  cases hfind : weights.find? fun weight => !isWeight weight with
  | some weight =>
      have hmem := List.mem_of_find?_eq_some hfind
      have hbad : isWeight weight = false := by simpa using List.find?_some hfind
      refine iff_of_true ⟨.invalidWeight weight, ?_⟩ (.inr (.inl ⟨weight, hmem, hbad⟩))
      simp only [seeded, hfind]
  | none =>
      have hweights : ¬∃ weight ∈ weights, isWeight weight = false := by
        rintro ⟨weight, hmem, hbad⟩
        have := List.find?_eq_none.1 hfind weight hmem
        simp [hbad] at this
      cases weights with
      | nil => exact iff_of_true ⟨.empty, rfl⟩ (.inl rfl)
      | cons first rest =>
          have hzero : ((first :: rest).foldl (· + ·) 0 == 0) = true ↔
              ((partialSums first rest).2 == 0) = true := by
            rw [beq_zero_iff, beq_zero_iff, (partialSums_eq first rest).2]
            exact isZero_iff_of_agree (agree_foldl_cons first rest)
          rw [or_iff_right (List.cons_ne_nil _ _), or_iff_right hweights, hzero]
          simp only [seeded, hfind]
          split
          · next htotal => exact iff_of_true ⟨_, rfl⟩ htotal
          · next htotal => exact iff_of_false (by simp) htotal

/-- A pick from weights whose sum does not overflow is a pick of a positive weight. -/
theorem pos_of_seeded {seed : String} {i : ℕ} (h : seeded seed weights = .ok i)
    (hfinite : (weights.foldl (· + ·) 0).isFinite = true) :
    ∃ weight, weights[i]? = some weight ∧ 0 < weight := by
  have hok : ¬∃ cause, seeded seed weights = .error cause := by
    rintro ⟨cause, hcause⟩
    rw [h] at hcause
    cases hcause
  rw [exists_error_iff, not_or, not_or] at hok
  obtain ⟨hne, hvalid, hzero⟩ := hok
  have hweights : ∀ weight ∈ weights, isWeight weight = true := by
    intro weight hmem
    by_contra hbad
    exact hvalid ⟨weight, hmem, by simpa using hbad⟩
  have htotal := isWeight_foldl isWeight_zero hweights hfinite
  have hpos : 0 < weights.foldl (· + ·) 0 := by
    rw [pos_iff_magnitude htotal]
    rcases unpack_of_isWeight htotal with ⟨s, hs⟩ | ⟨hm, hform⟩
    · exact absurd (beq_zero_iff.2 ⟨s, hs⟩) hzero
    · rw [magnitude_of_unpack_finite hform]
      positivity
  obtain ⟨j, weight, hj, hweight, hweightpos⟩ :=
    exists_pos_of_isDrawable seed ⟨hne, hweights, hpos, hfinite⟩
  cases h.symm.trans hj
  exact ⟨weight, hweight, hweightpos⟩

end Picks

/-! ## Rules -/

/-- What is put for an occurrence stands at the end of the path that is picked, and the path takes
alternatives with weight only. -/
theorem exists_path_of_resolve {setting : Setting} (hsampler : setting.sampler = seeded)
    {rule : Rule} {occurrence : Occurrence} {source : Source}
    (h : setting.resolve rule occurrence = .ok (.replace source)) :
    ∃ path leaf, rule.successor.LeadsTo path leaf.successor ∧
      setting.picks rule occurrence = path.map (fun step => some step.2) ∧
      setting.resolveLeaf rule.params occurrence leaf = .ok (.replace source) ∧
      ∀ step ∈ path, (totalWeight step.1).isFinite = true →
        ∃ alternative, step.1[step.2]? = some alternative ∧ 0 < alternative.2 := by
  unfold Setting.resolve at h
  split at h
  · next hadmits =>
    split at h
    · cases h
    · next leaf hleaf =>
      obtain ⟨path, hpath, hdrawn⟩ := exists_path_of_descend rule.successor hleaf
      refine ⟨path, leaf, hpath, ?_, h, fun step hstep hfinite => ?_⟩
      · rw [Setting.picks, Setting.draws, if_pos hadmits, hpath.outcomes_descend hdrawn,
          leaf.descend_successor, List.map_nil, List.append_nil]
      · have hpick := hdrawn step hstep
        rw [hsampler] at hpick
        rw [← foldl_map_weight] at hfinite
        obtain ⟨weight, hweight, hpos⟩ := pos_of_seeded hpick hfinite
        rw [List.getElem?_map, Option.map_eq_some_iff] at hweight
        obtain ⟨alternative, halternative, rfl⟩ := hweight
        exact ⟨alternative, halternative, hpos⟩
  · cases h

/-- **Only weight is picked.** For every seed, weights that are finite and not negative, with a
positive sum that does not overflow, have one of the positive ones picked. Among all weights whose sum
does not overflow the sampler fails for an empty list, for a weight that is negative or not finite, and
for a sum of zero, and for nothing else. So whatever a rule puts for an occurrence stands at the end of
the path that is picked, and each alternative on the path carries weight. -/
theorem seeded_picks_weight :
    (∀ (seed : String) (weights : List Float), IsDrawable weights →
      ∃ (i : ℕ) (hi : i < weights.length), seeded seed weights = .ok i ∧ 0 < weights[i]) ∧
    (∀ (seed : String) (weights : List Float),
      ((∀ weight ∈ weights, isWeight weight = true) →
        (weights.foldl (· + ·) 0).isFinite = true) →
      ((∃ cause, seeded seed weights = .error cause) ↔
        weights = [] ∨ (∃ weight ∈ weights, weight.isFinite = false ∨ weight < 0) ∨
          (weights.foldl (· + ·) 0 == 0) = true)) ∧
    ∀ (setting : Setting) (rule : Rule) (occurrence : Occurrence) (source : Source),
      setting.sampler = seeded → setting.resolve rule occurrence = .ok (.replace source) →
        ∃ path leaf, rule.successor.LeadsTo path leaf.successor ∧
          setting.picks rule occurrence = path.map (fun step => some step.2) ∧
          setting.resolveLeaf rule.params occurrence leaf = .ok (.replace source) ∧
          ∀ step ∈ path, (totalWeight step.1).isFinite = true →
            ∃ alternative, step.1[step.2]? = some alternative ∧ 0 < alternative.2 := by
  refine ⟨fun seed weights h => ?_, fun seed weights _ => ?_, ?_⟩
  · obtain ⟨i, weight, hi, hweight, hpos⟩ := exists_pos_of_isDrawable seed h
    obtain ⟨hlt, rfl⟩ := List.getElem?_eq_some_iff.1 hweight
    exact ⟨i, hlt, hi, hpos⟩
  · simp only [exists_error_iff, isWeight_eq_false_iff]
  · exact fun setting rule occurrence source hsampler h => exists_path_of_resolve hsampler h

/-- Weights between zeros of either sign, a negative weight, and a choice without weight inside
another one. -/
theorem seeded_picks_weight_between_zeros :
    (∃ (i : ℕ) (hi : i < [0, 2, -0.0, 1, (0 : Float)].length),
      seeded "A-0" [0, 2, -0.0, 1, 0] = .ok i ∧ 0 < [0, 2, -0.0, 1, (0 : Float)][i]) ∧
    (∃ cause, seeded "A-0" [1, -1] = .error cause) ∧
    ∃ (path : List (List (Successor × Float) × ℕ)) (leaf : Leaf),
      (Setting.choosing 1 0).successor.LeadsTo path leaf.successor ∧
      ∀ step ∈ path, (totalWeight step.1).isFinite = true →
        ∃ alternative, step.1[step.2]? = some alternative ∧ 0 < alternative.2 := by
  obtain ⟨hpicks, hfails, hputs⟩ := seeded_picks_weight
  have hdrawable : IsDrawable [0, 2, -0.0, 1, 0] :=
    ⟨by simp, by decide +kernel, by decide +kernel, by decide +kernel⟩
  have hresolve : Setting.resolve ⟨⟨latinCapitals, drawingMarks⟩, Table.empty, seeded⟩
      (Setting.choosing 1 0) ⟨[⟨"A", []⟩], 0, ⟨"A", []⟩⟩ =
        .ok (.replace (.word [⟨"B", []⟩])) := by
    decide +kernel
  obtain ⟨path, leaf, hpath, -, -, hweights⟩ := hputs _ _ _ _ rfl hresolve
  refine ⟨hpicks "A-0" _ hdrawable, (hfails "A-0" [1, -1] ?_).2 ?_, path, leaf, hpath, hweights⟩
  · exact fun _ => by decide +kernel
  · exact .inr (.inl ⟨-1, by simp, .inr (by decide +kernel)⟩)

end GrowthGrammar.Sampler
