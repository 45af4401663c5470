import GrowthGrammar.Proofs.Decimal.Digits
import GrowthGrammar.Proofs.Derivation.Descent
import GrowthGrammar.Proofs.Derivation.Sweep
import Mathlib.Data.List.DropRight

/-!
# Seeds of occurrences

A seed is a symbol and a position with a hyphen between them. The symbol may have hyphens and digits
of its own, but the numeral of the position has no hyphen, so the last hyphen of a seed is the one
between the two, and a seed can be taken apart again (`seedOrigin_occurrenceSeed`). Every draw for an
occurrence is made with the seed of the occurrence, under whichever of its rules and at whichever
depth of alternatives. So no two occurrences in a word are drawn for with the same seed, and the
draws of a pass are told apart by their seeds (`seeds_distinguish_occurrences`).
-/

set_option autoImplicit false

namespace GrowthGrammar

/-! ## Taking a seed apart -/

/-- The symbol and the position that a seed is made of: what is in front of the last hyphen, and the
number behind it. -/
def seedOrigin (seed : String) : String × Nat :=
  let front := seed.toList.rdropWhile (· != '-')
  let digits := seed.toList.rtakeWhile (· != '-')
  (String.ofList front.dropLast, Decimal.value digits)

theorem toList_occurrenceSeed (symbol : String) (index : Nat) :
    (occurrenceSeed symbol index).toList = symbol.toList ++ ['-'] ++ Decimal.numeral index := by
  simp [occurrenceSeed, Decimal.text]

/-- A seed is taken apart into what it was made of. -/
theorem seedOrigin_occurrenceSeed (symbol : String) (index : Nat) :
    seedOrigin (occurrenceSeed symbol index) = (symbol, index) := by
  -- seen from the end, the digits go on up to the hyphen
  have hdigits : ∀ c ∈ (Decimal.numeral index).reverse, (c != '-') = true := by
    intro c hc
    have hdigit := Decimal.isDigit_of_mem_numeral (List.mem_reverse.1 hc)
    exact bne_iff_ne.2 (Decimal.ne_of_isDigit hdigit rfl)
  have hfront : (occurrenceSeed symbol index).toList.rdropWhile (· != '-') =
      symbol.toList ++ ['-'] := by
    simp [toList_occurrenceSeed, List.rdropWhile, List.dropWhile_append_of_pos hdigits]
  have hbehind : (occurrenceSeed symbol index).toList.rtakeWhile (· != '-') =
      Decimal.numeral index := by
    simp [toList_occurrenceSeed, List.rtakeWhile, List.takeWhile_append_of_pos hdigits]
  simp only [seedOrigin, hfront, hbehind, List.dropLast_concat, String.ofList_toList,
    Decimal.value_numeral]

/-- A symbol that looks like a seed itself. -/
example : seedOrigin "F-1-12" = ("F-1", 12) := by decide +kernel

/-- Different symbols or positions have different seeds. -/
theorem occurrenceSeed_inj {first second : String} {i j : Nat} :
    occurrenceSeed first i = occurrenceSeed second j ↔ first = second ∧ i = j := by
  constructor
  · intro h
    have horigin := congrArg seedOrigin h
    rw [seedOrigin_occurrenceSeed, seedOrigin_occurrenceSeed] at horigin
    exact Prod.mk.inj horigin
  · rintro ⟨rfl, rfl⟩
    rfl

/-! ## Draws and their seeds -/

/-- All draws of a descent are made with one seed. -/
theorem Successor.Descends.seed_eq {sampler : Sampler} {seed : String} {successor : Successor}
    {descent : Descent} (h : Descends sampler seed successor descent) :
    ∀ draw ∈ descent.draws, draw.seed = seed := by
  induction h with
  | leaf leaf => exact List.forall_mem_nil _
  | failed fails => exact List.forall_mem_singleton.2 rfl
  | missed picks absent => exact List.forall_mem_singleton.2 rfl
  | into picks taken behind ih => exact List.forall_mem_cons.2 ⟨rfl, ih⟩

namespace Setting

variable {setting : Setting} {occurrence : Occurrence} {rules : List Rule} {draw : Draw}

theorem seed_of_mem_draws {rule : Rule} (h : draw ∈ setting.draws rule occurrence) :
    draw.seed = seed occurrence := by
  unfold draws at h
  split at h
  · exact (rule.successor.descends setting.sampler (seed occurrence)).seed_eq draw h
  · cases h

/-- The seed does not depend on the rule for which a draw is made. -/
theorem seed_of_mem_drawsFirst (h : draw ∈ setting.drawsFirst occurrence rules) :
    draw.seed = seed occurrence := by
  induction rules with
  | nil => cases h
  | cons rule rules ih =>
      rw [drawsFirst, List.mem_append] at h
      rcases h with h | h
      · exact seed_of_mem_draws h
      · split at h
        · exact ih h
        · cases h

theorem filter_seed_self (setting : Setting) (rules : List Rule) (occurrence : Occurrence) :
    (setting.drawsFirst occurrence rules).filter (fun draw => draw.seed = seed occurrence) =
      setting.drawsFirst occurrence rules := by
  rw [List.filter_eq_self]
  exact fun draw hdraw => decide_eq_true (seed_of_mem_drawsFirst hdraw)

/-- Occurrences at other positions have no draw with the seed. -/
theorem filter_seed_of_ne {others : List Occurrence}
    (h : ∀ other ∈ others, other.index ≠ occurrence.index) :
    (others.flatMap fun other =>
      setting.drawsFirst other (rulesFor rules other.letter.symbol)).filter
        (fun draw => draw.seed = seed occurrence) = [] := by
  rw [List.filter_eq_nil_iff]
  intro draw hdraw hseed
  obtain ⟨other, hother, hdraw⟩ := List.mem_flatMap.1 hdraw
  rw [decide_eq_true_eq, seed_of_mem_drawsFirst hdraw] at hseed
  exact h other hother (occurrenceSeed_inj.1 hseed).2

/-- **Seeds tell occurrences apart.** Whatever characters two symbols are made of, they have the same
seed at two positions only if they are the same symbol at the same position. So the draws of a pass
that are made with the seed of an occurrence are those for this occurrence, all of them and in their
order, and no others. -/
theorem seeds_distinguish_occurrences :
    (∀ (first second : String) (i j : Nat),
      occurrenceSeed first i = occurrenceSeed second j ↔ first = second ∧ i = j) ∧
    ∀ (setting : Setting) (rules : List Rule) (word : Word) (i : Fin word.length),
      (setting.passDraws rules word).filter (fun draw => draw.seed = seed (word.occurrence i)) =
        setting.drawsFirst (word.occurrence i)
          (rulesFor rules (word.occurrence i).letter.symbol) := by
  refine ⟨fun first second i j => occurrenceSeed_inj, fun setting rules word i => ?_⟩
  obtain ⟨front, back, hsplit⟩ := List.append_of_mem (Word.mem_occurrences_iff.2 ⟨i, rfl⟩)
  -- positions increase along the word, so no other occurrence is at this one
  have hordered := word.pairwise_occurrences
  rw [hsplit, List.pairwise_append, List.pairwise_cons] at hordered
  obtain ⟨-, ⟨hafter, -⟩, hbefore⟩ := hordered
  have hfront : ∀ other ∈ front, other.index ≠ (word.occurrence i).index := fun other hother =>
    (hbefore other hother _ List.mem_cons_self).ne
  have hback : ∀ other ∈ back, other.index ≠ (word.occurrence i).index := fun other hother =>
    (hafter other hother).ne'
  rw [passDraws, hsplit, List.flatMap_append, List.flatMap_cons, List.filter_append,
    List.filter_append, filter_seed_of_ne hfront, filter_seed_of_ne hback, filter_seed_self,
    List.nil_append, List.append_nil]

end Setting

end GrowthGrammar
