import GrowthGrammar.Proofs.Context.Forest
import GrowthGrammar.Proofs.Derivation.Leaves
import GrowthGrammar.Proofs.System.Rewriting
import GrowthGrammar.Proofs.System.Soundness

/-!
# Branches stay closed

A word is balanced if its brackets open and close the same branches. Where no bracket is active,
none of them is ever replaced, and a balanced word put for any other letter opens and closes its
branches between the branches around it (`level_image`). So if all that the rules can put is balanced,
every pass keeps a balanced word balanced, whatever is drawn or fails in it (`isBalanced_after`).
-/

set_option autoImplicit false

namespace GrowthGrammar

variable {κ : Type}

/-! ## Rows -/

namespace Side

variable {side : Side}

/-- A balanced row leaves as many brackets open as there are open before it. -/
theorem level_of_isBalanced {symbols : List String} (h : side.IsBalanced symbols) (depth : Nat) :
    side.level depth symbols = some depth := by
  induction depth with
  | zero => exact h
  | succ depth ih => exact level_succ ih

/-- Rows put together from pieces that open and close the same brackets do so themselves. -/
theorem level_flatMap {α : Type} {pieces others : α → List String} {xs : List α}
    (h : ∀ x ∈ xs, ∀ depth, side.level depth (pieces x) = side.level depth (others x))
    (depth : Nat) :
    side.level depth (xs.flatMap pieces) = side.level depth (xs.flatMap others) := by
  induction xs generalizing depth with
  | nil => rfl
  | cons x xs ih =>
      rw [List.flatMap_cons, List.flatMap_cons, level_append, level_append,
        h x List.mem_cons_self]
      congr 1
      funext after
      exact ih (fun y hy => h y (List.mem_cons_of_mem _ hy)) after

end Side

/-! ## Words, sources and successors -/

/-- A word whose brackets open and close the same branches. -/
def Word.IsBalanced (word : Word) : Prop :=
  Side.after.IsBalanced (word.map Letter.symbol)

instance (word : Word) : Decidable word.IsBalanced :=
  inferInstanceAs (Decidable (Side.after.IsBalanced _))

/-- A source that stands for balanced words alone. Of a phrase the symbols that it is scanned to
count. -/
def Source.IsBalanced (vocabulary : Vocabulary) : Source → Prop
  | .phrase text => ∀ symbols, Phrase.symbols vocabulary text = .ok symbols →
      Side.after.IsBalanced symbols
  | .word letters => Word.IsBalanced letters
  | .letter l => Word.IsBalanced [l]

instance (vocabulary : Vocabulary) : DecidablePred (Source.IsBalanced vocabulary)
  | .phrase text =>
    match h : Phrase.symbols vocabulary text with
    | .ok symbols => decidable_of_iff (Side.after.IsBalanced symbols) (by simp [Source.IsBalanced, h])
    | .error _ => isTrue (by simp [Source.IsBalanced, h])
  | .word letters => inferInstanceAs (Decidable (Word.IsBalanced letters))
  | .letter l => inferInstanceAs (Decidable (Word.IsBalanced [l]))

/-- A leaf that puts nothing but balanced words. A computation may decline. -/
def Leaf.IsBalanced (vocabulary : Vocabulary) : Leaf → Prop
  | .phrase text => (Source.phrase text).IsBalanced vocabulary
  | .word letters => Word.IsBalanced letters
  | .computed result => ∀ occurrence source, result occurrence = .replace source →
      source.IsBalanced vocabulary

/-- A successor with balanced leaves, at any depth of alternatives. -/
def Successor.IsBalanced (vocabulary : Vocabulary) (successor : Successor) : Prop :=
  ∀ leaf, successor.Reaches leaf → leaf.IsBalanced vocabulary

namespace Setting

variable {setting : Setting} {rules : List Rule} {occurrence : Occurrence}

/-- A balanced source is normalised to a balanced word. -/
theorem isBalanced_of_normalize {source : Source} {word : Word}
    (h : source.IsBalanced setting.vocabulary) (hnormal : setting.normalize source = .ok word) :
    word.IsBalanced := by
  have hnormal := Outcome.mapError_eq_ok_iff.1 hnormal
  cases source with
  | phrase text => exact h _ (Phrase.symbols_of_tokenize hnormal)
  | word letters =>
      obtain ⟨_, -, hchecked⟩ := Outcome.bind_eq_ok_iff.1 hnormal
      cases hchecked
      exact h
  | letter l =>
      obtain ⟨_, -, hchecked⟩ := Outcome.bind_eq_ok_iff.1 hnormal
      cases hchecked
      exact h

/-- What is made of a balanced leaf is a balanced source. -/
theorem isBalanced_of_resolveLeaf {params : List String} {leaf : Leaf} {source : Source}
    (h : leaf.IsBalanced setting.vocabulary)
    (hresolve : setting.resolveLeaf params occurrence leaf = .ok (.replace source)) :
    source.IsBalanced setting.vocabulary := by
  cases leaf with
  | phrase text =>
      obtain ⟨scope, -, hresolve⟩ := Outcome.bind_eq_ok_iff.1 hresolve
      obtain ⟨word, hword, hresolve⟩ := Outcome.bind_eq_ok_iff.1 hresolve
      cases hresolve
      exact h _ (Phrase.symbols_of_tokenize (Outcome.mapError_eq_ok_iff.1 hword))
  | word letters =>
      cases hresolve
      exact h
  | computed result => exact h occurrence source (Except.ok.inj hresolve)

/-- Rules with balanced successors put balanced words. -/
theorem isBalanced_of_settles
    (hrules : ∀ rule ∈ rules, rule.successor.IsBalanced setting.vocabulary) {word : Word}
    (h : setting.Settles occurrence rules (.ok (some word))) : word.IsBalanced := by
  obtain ⟨rule, hrule, leaf, source, hreaches, hresolve, hnormal⟩ := exists_leaf_of_settles h
  have hleaf := hrules rule hrule leaf hreaches
  exact isBalanced_of_normalize (isBalanced_of_resolveLeaf hleaf hresolve) hnormal

/-! ## Passes -/

/-- A letter without rules stays as it is, parameters included. -/
theorem image_of_forall_ne (h : ∀ rule ∈ rules, rule.symbol ≠ occurrence.letter.symbol) :
    setting.image rules occurrence = [occurrence.letter] := by
  have hnone : rulesFor rules occurrence.letter.symbol = [] := by
    refine List.filter_eq_nil_iff.2 fun rule hrule => ?_
    simpa using h rule hrule
  rw [image_eq, hnone]
  rfl

/-- What stands for a letter opens and closes the brackets that the letter does: a bracket has no
rules and stays, and any other letter makes room for a balanced word. -/
theorem level_image (hbrackets : ∀ rule ∈ rules, isBracket rule.symbol = false)
    (hrules : ∀ rule ∈ rules, rule.successor.IsBalanced setting.vocabulary)
    (occurrence : Occurrence) (depth : Nat) :
    Side.after.level depth ((setting.image rules occurrence).map Letter.symbol) =
      Side.after.level depth [occurrence.letter.symbol] := by
  cases hbracket : isBracket occurrence.letter.symbol with
  | true =>
      rw [image_of_forall_ne]
      · rfl
      · intro rule hrule heq
        rw [← heq, hbrackets rule hrule] at hbracket
        cases hbracket
  | false =>
      rw [image_eq]
      cases houtcome : setting.replacement? (rulesFor rules occurrence.letter.symbol) occurrence with
      | error error => rfl
      | ok replacement =>
          cases replacement with
          | none => rfl
          | some word =>
              have hof : ∀ rule ∈ rulesFor rules occurrence.letter.symbol,
                  rule.successor.IsBalanced setting.vocabulary :=
                fun rule hrule => hrules rule (List.mem_of_mem_filter hrule)
              have hword := isBalanced_of_settles hof (settles_iff.2 houtcome)
              obtain ⟨hopening, hclosing⟩ := Side.after.isBracket_eq_false_iff.1 hbracket
              rw [Side.level_plain hopening hclosing, Side.level_nil]
              exact Side.level_of_isBalanced hword depth

/-- **One pass keeps a word balanced.** -/
theorem isBalanced_pass (hbrackets : ∀ rule ∈ rules, isBracket rule.symbol = false)
    (hrules : ∀ rule ∈ rules, rule.successor.IsBalanced setting.vocabulary) {word : Word}
    (h : word.IsBalanced) : (setting.pass rules word).IsBalanced := by
  have hpass : (setting.pass rules word).map Letter.symbol =
      word.occurrences.flatMap fun o => (setting.image rules o).map Letter.symbol := by
    rw [pass, List.map_flatMap]
  have hword : word.map Letter.symbol = word.occurrences.flatMap fun o => [o.letter.symbol] := by
    calc word.map Letter.symbol
      _ = (word.occurrences.map Occurrence.letter).map Letter.symbol := by
        rw [Word.map_letter_occurrences]
      _ = word.occurrences.map fun o => o.letter.symbol := List.map_map
      _ = word.occurrences.flatMap fun o => [o.letter.symbol] := List.map_eq_flatMap
  unfold Word.IsBalanced Side.IsBalanced
  rw [hpass, Side.level_flatMap (fun o _ => level_image hbrackets hrules o), ← hword]
  exact h

theorem isBalanced_iterate (hbrackets : ∀ rule ∈ rules, isBracket rule.symbol = false)
    (hrules : ∀ rule ∈ rules, rule.successor.IsBalanced setting.vocabulary) (count : Nat)
    {word : Word} (h : word.IsBalanced) : ((setting.pass rules)^[count] word).IsBalanced := by
  induction count with
  | zero => exact h
  | succ count ih =>
      rw [Function.iterate_succ_apply']
      exact isBalanced_pass hbrackets hrules ih

end Setting

/-! ## Systems -/

namespace System

/-- **Branches stay closed.** Take any history of a system, with no bracket among the active symbols,
after which the word is balanced, and so is every leaf of every rule. However often the system is
then rewritten, whatever its sampler picks, and whichever occurrences fail, its word stays
balanced. Each pass puts together what stands for the letters before it, and for an ignored letter
that is the letter itself with its parameters. -/
theorem isBalanced_after {origin : Origin κ} {built : System κ} (hbuilt : origin.build = .ok built)
    (operations : List (Operation κ)) {system : System κ} (hsystem : system = built.after operations)
    (hactive : "[" ∉ system.vocabulary.active ∧ "]" ∉ system.vocabulary.active)
    (hword : system.word.IsBalanced)
    (hrules : ∀ rule ∈ system.rules, rule.successor.IsBalanced system.vocabulary) (count : Nat) :
    let grown := (system.iterateN count).word
    grown.IsBalanced ∧
    (system.iterateN (count + 1)).word =
      grown.occurrences.flatMap (system.setting.image system.rules) ∧
    ∀ occurrence ∈ grown.occurrences, occurrence.letter.symbol ∈ system.vocabulary.ignored →
      system.setting.image system.rules occurrence = [occurrence.letter] := by
  have hsound : system.IsSound origin.alphabet origin.ignored := by
    rw [hsystem]
    exact (isSound_of_origin hbuilt).after operations
  intro grown
  refine ⟨?_, word_iterateN_succ system count, ?_⟩
  · have hbrackets : ∀ rule ∈ system.rules, isBracket rule.symbol = false := by
      intro rule hrule
      -- a rule has an active symbol, and neither bracket is one
      have hsymbol := (hsound.rules rule hrule).active
      have hopening : rule.symbol ≠ "[" := fun heq => hactive.1 (heq ▸ hsymbol)
      have hclosing : rule.symbol ≠ "]" := fun heq => hactive.2 (heq ▸ hsymbol)
      exact Side.after.isBracket_eq_false_iff.2 ⟨hopening, hclosing⟩
    have hgrown : ((system.setting.pass system.rules)^[count] system.word).IsBalanced :=
      Setting.isBalanced_iterate hbrackets hrules count hword
    rwa [← word_iterateN] at hgrown
  · intro occurrence _ hignored
    refine Setting.image_of_forall_ne fun rule hrule heq => ?_
    exact hsound.not_mem_ignored hrule (heq ▸ hignored)

/-- A system that puts branches in every way: by a phrase, by a word inside a choice inside a choice,
and by a computation that declines every other time. Letters `F` without a parameter fail. -/
def sprouting : Options Unit where
  alphabet := ["F", "X", "Y"]
  ignored := some ["+", "[", "]"]
  word := some (.phrase "F[+(90)X]XY")
  productions :=
    [("X", ⟨.stochastic [(.phrase "F[+X][Y]", 1),
        (.stochastic [(.word [⟨"X", []⟩, ⟨"[", []⟩, ⟨"F", [2]⟩, ⟨"]", []⟩], 3)], 0.5)],
        none, none, []⟩),
      ("F(p)", ⟨.phrase "F(1/p)", none, none, []⟩),
      ("Y", ⟨.computed fun occurrence =>
        if occurrence.index % 2 = 0 then .noMatch else .replace (.phrase "[+F]"),
        none, none, []⟩)]

theorem isBalanced_sprouting {vocabulary : Vocabulary}
    (hphrases : ∀ text ∈ ["F[+X][Y]", "F(1/p)", "[+F]"],
      (Source.phrase text).IsBalanced vocabulary) :
    ∀ production ∈ sprouting.productions, production.2.successor.IsBalanced vocabulary := by
  intro production hproduction leaf hreaches
  simp only [sprouting, List.mem_cons, List.not_mem_nil, or_false] at hproduction
  rcases hproduction with rfl | rfl | rfl
  · cases hreaches with
    | alternative hmem hreaches =>
        simp only [List.mem_cons, List.not_mem_nil, or_false] at hmem
        rcases hmem with rfl | rfl
        · cases hreaches
          exact hphrases _ (by simp)
        · cases hreaches with
          | alternative hmem hreaches =>
              obtain rfl := List.mem_singleton.1 hmem
              cases hreaches
              exact (by decide : Word.IsBalanced [⟨"X", []⟩, ⟨"[", []⟩, ⟨"F", [2]⟩, ⟨"]", []⟩])
  · cases hreaches
    exact hphrases _ (by simp)
  · cases hreaches
    intro occurrence source hsource
    dsimp only at hsource
    split at hsource
    · cases hsource
    · cases hsource
      exact hphrases _ (by simp)

/-- The sprouting system in its third pass, in which letters fail. -/
theorem isBalanced_after_sprouting :
    ∃ built system : System Unit, (Origin.options sprouting).build = .ok built ∧
      system = built.after [.iterate, .setDefine "a" 1] ∧
      ("[" ∉ system.vocabulary.active ∧ "]" ∉ system.vocabulary.active) ∧
      system.word.IsBalanced ∧ (system.iterateN 2).diagnostics ≠ [] ∧
      let grown := (system.iterateN 1).word
      grown.IsBalanced ∧
      (system.iterateN 2).word =
        grown.occurrences.flatMap (system.setting.image system.rules) ∧
      ∀ occurrence ∈ grown.occurrences, occurrence.letter.symbol ∈ system.vocabulary.ignored →
        system.setting.image system.rules occurrence = [occurrence.letter] := by
  have hcheck : (Origin.options sprouting).build.toOption.map (fun built =>
      let system := built.after [.iterate, .setDefine "a" 1]
      decide (("[" ∉ system.vocabulary.active ∧ "]" ∉ system.vocabulary.active) ∧
        system.word.IsBalanced ∧ (system.iterateN 2).diagnostics ≠ [] ∧
        ∀ text ∈ ["F[+X][Y]", "F(1/p)", "[+F]"],
          (Source.phrase text).IsBalanced system.vocabulary)) = some true := by
    decide +kernel
  obtain ⟨built, h, hcheck⟩ := Outcome.exists_of_map_toOption hcheck
  obtain ⟨hactive, hword, hdiagnostics, hphrases⟩ := of_decide_eq_true hcheck
  refine ⟨built, _, h, rfl, hactive, hword, hdiagnostics, ?_⟩
  refine isBalanced_after h _ rfl hactive hword ?_ 1
  -- neither operation changes the rules that were built
  intro rule hrule
  have hyields := Options.yields_of_build (Outcome.mapError_eq_ok_iff.1 h)
  obtain ⟨production, hproduction, hregister⟩ := hyields.rules rule hrule
  rw [successor_of_register hregister]
  exact isBalanced_sprouting hphrases production hproduction

end System

end GrowthGrammar
