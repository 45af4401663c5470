import GrowthGrammar.Proofs.Production.Validity
import GrowthGrammar.Proofs.System.Rewriting

/-!
# Growth of context-free systems

A rule is context-free if it has no surroundings and no condition, and a phrase or a word for its
successor. Under such rules an occurrence is replaced, declined or failed by its letter alone,
wherever it stands. So a pass is a homomorphism of words: it puts together what it makes of the
letters one by one (`pass_eq_flatMap`), and so do any number of passes (`iterate_pass_append`). In
particular the letters of the first word grow independently of each other (`iterateN_append`).
-/

set_option autoImplicit false

namespace GrowthGrammar

/-! ## Context-free rules -/

/-- A successor that is put without a draw and without a computation. -/
def Successor.IsFixed : Successor → Prop
  | .phrase _ => True
  | .word _ => True
  | .computed _ => False
  | .stochastic _ => False

instance : DecidablePred Successor.IsFixed
  | .phrase _ => .isTrue trivial
  | .word _ => .isTrue trivial
  | .computed _ => .isFalse id
  | .stochastic _ => .isFalse id

/-- A rule that looks at nothing but the letter that it is applied to. -/
structure Rule.IsContextFree (rule : Rule) : Prop where
  surroundings : rule.surroundings = none
  condition : rule.condition = none
  successor : rule.successor.IsFixed

instance (rule : Rule) : Decidable rule.IsContextFree :=
  decidable_of_iff
    (rule.surroundings = none ∧ rule.condition.isNone = true ∧ rule.successor.IsFixed)
    ⟨fun ⟨hsurroundings, hcondition, hsuccessor⟩ =>
        ⟨hsurroundings, Option.isNone_iff_eq_none.1 hcondition, hsuccessor⟩,
      fun h => ⟨h.surroundings, Option.isNone_iff_eq_none.2 h.condition, h.successor⟩⟩

/-- The occurrence of a letter that stands alone. -/
def Letter.alone (letter : Letter) : Occurrence :=
  ⟨[letter], 0, letter⟩

/-- The diagnostic of the same occurrence with more letters in front of the word. -/
def Diagnostic.shift (offset : Nat) (diagnostic : Diagnostic) : Diagnostic :=
  { diagnostic with index := diagnostic.index + offset }

namespace Setting

variable {setting : Setting} {rules : List Rule}

/-! ## One occurrence -/

/-- A context-free rule makes the same of all occurrences of a letter. -/
theorem resolve_alone {rule : Rule} (hrule : rule.IsContextFree) (occurrence : Occurrence) :
    setting.resolve rule occurrence = setting.resolve rule occurrence.letter.alone := by
  have hadmits (other : Occurrence) : setting.admits rule other = true := by
    simp [admits, hrule.surroundings, hrule.condition]
  unfold resolve
  rw [if_pos (hadmits _), if_pos (hadmits _)]
  have hfixed := hrule.successor
  cases hsuccessor : rule.successor with
  | phrase text => rfl
  | word word => rfl
  | computed result =>
      rw [hsuccessor] at hfixed
      exact hfixed.elim
  | stochastic alternatives =>
      rw [hsuccessor] at hfixed
      exact hfixed.elim

theorem resolveFirst_alone (hrules : ∀ rule ∈ rules, rule.IsContextFree) (occurrence : Occurrence) :
    setting.resolveFirst occurrence rules =
      setting.resolveFirst occurrence.letter.alone rules := by
  induction rules with
  | nil => rfl
  | cons rule rules ih =>
      rw [resolveFirst, resolveFirst, resolve_alone (hrules rule List.mem_cons_self),
        ih fun other hother => hrules other (List.mem_cons_of_mem _ hother)]

theorem derive_alone (hrules : ∀ rule ∈ rules, rule.IsContextFree) (occurrence : Occurrence) :
    setting.derive rules occurrence = setting.derive rules occurrence.letter.alone := by
  have hfree : ∀ rule ∈ rulesFor rules occurrence.letter.symbol, rule.IsContextFree :=
    fun rule hrule => hrules rule (List.mem_of_mem_filter hrule)
  unfold derive
  rw [resolveFirst_alone hfree]
  rfl

/-- What stands for an occurrence is what stands for its letter alone. -/
theorem image_alone (hrules : ∀ rule ∈ rules, rule.IsContextFree) (occurrence : Occurrence) :
    setting.image rules occurrence = setting.image rules occurrence.letter.alone := by
  unfold image
  rw [derive_alone hrules]
  rfl

/-- An occurrence fails as its letter does alone. -/
theorem diagnose?_alone (hrules : ∀ rule ∈ rules, rule.IsContextFree) (iteration : Nat)
    (occurrence : Occurrence) :
    setting.diagnose? rules iteration occurrence =
      (setting.diagnose? rules iteration occurrence.letter.alone).map
        (Diagnostic.shift occurrence.index) := by
  unfold diagnose?
  rw [derive_alone hrules]
  cases setting.derive rules occurrence.letter.alone with
  | ok word => rfl
  | error error => simp [Letter.alone, Diagnostic.shift]

/-! ## One pass -/

/-- A pass puts together what it makes of each letter alone. -/
theorem pass_eq_flatMap (hrules : ∀ rule ∈ rules, rule.IsContextFree) (word : Word) :
    setting.pass rules word = word.flatMap fun letter => setting.image rules letter.alone := by
  have halone : word.occurrences.flatMap (setting.image rules) =
      word.occurrences.flatMap fun occurrence =>
        setting.image rules occurrence.letter.alone :=
    List.flatMap_congr fun occurrence _ => image_alone hrules occurrence
  calc setting.pass rules word
      = word.occurrences.flatMap fun occurrence =>
          setting.image rules occurrence.letter.alone := halone
    _ = (word.occurrences.map Occurrence.letter).flatMap fun letter =>
          setting.image rules letter.alone := by rw [List.flatMap_map]
    _ = _ := by rw [Word.map_letter_occurrences]

theorem pass_append (hrules : ∀ rule ∈ rules, rule.IsContextFree) (front rest : Word) :
    setting.pass rules (front ++ rest) = setting.pass rules front ++ setting.pass rules rest := by
  rw [pass_eq_flatMap hrules, pass_eq_flatMap hrules, pass_eq_flatMap hrules, List.flatMap_append]

/-- The diagnostics of a word are those of its two parts, the second moved behind the first. -/
theorem passDiagnostics_append (hrules : ∀ rule ∈ rules, rule.IsContextFree) (iteration : Nat)
    (front rest : Word) :
    setting.passDiagnostics rules iteration (front ++ rest) =
      setting.passDiagnostics rules iteration front ++
        (setting.passDiagnostics rules iteration rest).map (Diagnostic.shift front.length) := by
  -- of an occurrence, only the letter and the index matter
  have heq (word : Word) : setting.passDiagnostics rules iteration word =
      word.zipIdx.filterMap fun entry =>
        (setting.diagnose? rules iteration entry.1.alone).map (Diagnostic.shift entry.2) := by
    rw [passDiagnostics, Word.occurrences, List.filterMap_map]
    exact List.filterMap_congr fun entry _ => diagnose?_alone hrules iteration _
  have hmoved : rest.zipIdx front.length =
      rest.zipIdx.map fun entry => (entry.1, front.length + entry.2) :=
    List.zipIdx_eq_map_add
  rw [heq, heq, heq, List.zipIdx_append, List.filterMap_append, Nat.zero_add, List.map_filterMap,
    hmoved, List.filterMap_map]
  congr 1
  refine List.filterMap_congr fun entry _ => ?_
  have hshift : Diagnostic.shift (front.length + entry.2) =
      Diagnostic.shift front.length ∘ Diagnostic.shift entry.2 := by
    funext diagnostic
    simp only [Function.comp_apply, Diagnostic.shift, Diagnostic.mk.injEq, true_and, and_true]
    omega
  rw [Option.map_map, ← hshift]
  rfl

/-! ## Any number of passes -/

/-- **Passes are homomorphisms.** -/
theorem iterate_pass_append (hrules : ∀ rule ∈ rules, rule.IsContextFree) (count : Nat)
    (front rest : Word) :
    (setting.pass rules)^[count] (front ++ rest) =
      (setting.pass rules)^[count] front ++ (setting.pass rules)^[count] rest := by
  induction count generalizing front rest with
  | zero => rfl
  | succ count ih => rw [Function.iterate_succ_apply, pass_append hrules, ih]; rfl

/-- What passes leave is put together from what they leave of each letter alone. -/
theorem iterate_pass_eq_flatMap (hrules : ∀ rule ∈ rules, rule.IsContextFree) (count : Nat)
    (word : Word) :
    (setting.pass rules)^[count] word =
      word.flatMap fun letter => (setting.pass rules)^[count] [letter] := by
  induction word with
  | nil => exact Function.iterate_fixed rfl count
  | cons letter word ih =>
      rw [List.flatMap_cons, ← ih, ← iterate_pass_append hrules, List.singleton_append]

/-- The diagnostics of a run over a word are those of the runs over its two parts. The second part
stands behind what the first has grown to. -/
theorem mem_diagnostics_run_append (hrules : ∀ rule ∈ rules, rule.IsContextFree) {count : Nat}
    {front rest : Word} {diagnostic : Diagnostic} :
    diagnostic ∈ (setting.run rules 0 count (front ++ rest)).diagnostics ↔
      diagnostic ∈ (setting.run rules 0 count front).diagnostics ∨
        ∃ found ∈ (setting.run rules 0 count rest).diagnostics,
          found.shift ((setting.pass rules)^[found.iteration] front).length = diagnostic := by
  simp only [mem_diagnostics_run, iterate_pass_append hrules, passDiagnostics_append hrules,
    List.mem_append, List.mem_map, Nat.zero_add]
  constructor
  · rintro ⟨pass, hpass, hfront | ⟨found, hfound, rfl⟩⟩
    · exact .inl ⟨pass, hpass, hfront⟩
    · obtain rfl := (mem_passDiagnostics_iff.1 hfound).1
      exact .inr ⟨found, ⟨_, hpass, hfound⟩, rfl⟩
  · rintro (⟨pass, hpass, hfront⟩ | ⟨found, ⟨pass, hpass, hfound⟩, rfl⟩)
    · exact ⟨pass, hpass, .inl hfront⟩
    · obtain rfl := (mem_passDiagnostics_iff.1 hfound).1
      exact ⟨_, hpass, .inr ⟨found, hfound, rfl⟩⟩

end Setting

/-! ## Systems -/

namespace System

variable {κ : Type} {system : System κ}

/-- The system with another word to start from. -/
def startingFrom (system : System κ) (word : Word) : System κ :=
  { system with word }

theorem word_startingFrom (system : System κ) (word : Word) (count : Nat) :
    ((system.startingFrom word).iterateN count).word =
      (system.setting.pass system.rules)^[count] word :=
  word_iterateN (system.startingFrom word) count

/-- A system starts from every word over its symbols. -/
theorem setWord_eq_startingFrom {word : Word}
    (hword : system.vocabulary.Covers (word.map Letter.symbol)) :
    system.setWord (.word word) = .ok (system.startingFrom word) :=
  Outcome.bind_eq_ok_iff.2 ⟨word, checked_of_covers hword, rfl⟩

/-- **Context-free systems grow letter by letter.** Under context-free rules, the passes from a word
put in two parts leave what they leave of each part, one behind the other. What fails in the second
part fails there as it does alone, at an index moved by the length of what the first part has grown
to. So each symbol occurs as often as it does in what the single letters of the first word have
grown to, taken together. -/
theorem iterateN_append (hrules : ∀ rule ∈ system.rules, rule.IsContextFree) :
    (∀ word, system.vocabulary.Covers (word.map Letter.symbol) →
      system.setWord (.word word) = .ok (system.startingFrom word)) ∧
    (∀ (front rest : Word) (count : Nat),
      ((system.startingFrom (front ++ rest)).iterateN count).word =
        ((system.startingFrom front).iterateN count).word ++
          ((system.startingFrom rest).iterateN count).word) ∧
    (∀ (front rest : Word) (count : Nat) (diagnostic : Diagnostic),
      diagnostic ∈ ((system.startingFrom (front ++ rest)).iterateN count).diagnostics ↔
        diagnostic ∈ ((system.startingFrom front).iterateN count).diagnostics ∨
          ∃ found ∈ ((system.startingFrom rest).iterateN count).diagnostics,
            found.shift ((system.startingFrom front).iterateN found.iteration).word.length =
              diagnostic) ∧
    ∀ (word : Word) (count : Nat) (symbol : String),
      (((system.startingFrom word).iterateN count).word.map Letter.symbol).count symbol =
        (word.map fun letter =>
          (((system.startingFrom [letter]).iterateN count).word.map Letter.symbol).count
            symbol).sum := by
  refine ⟨fun _ => setWord_eq_startingFrom, ?_, ?_, ?_⟩
  · intro front rest count
    rw [word_startingFrom, word_startingFrom, word_startingFrom,
      Setting.iterate_pass_append hrules]
  · intro front rest count diagnostic
    simp only [word_startingFrom]
    exact Setting.mem_diagnostics_run_append hrules
  · intro word count symbol
    rw [word_startingFrom, Setting.iterate_pass_eq_flatMap hrules, List.map_flatMap,
      List.count_flatMap]
    congr 1
    refine List.map_congr_left fun letter _ => ?_
    rw [word_startingFrom]
    rfl

/-- The rules of algae, one with a word for its successor, and a rule that fails for a letter
without parameters. -/
def algae : Options Unit where
  alphabet := ["A", "B", "C"]
  productions :=
    [("A", ⟨.phrase "A B", none, none, []⟩), ("B", ⟨.word [⟨"A", []⟩], none, none, []⟩),
      ("C(p)", ⟨.phrase "C(p + 1) A", none, none, []⟩)]

/-- Algae from a word in which the third letter fails in every pass. Alone, the first letter has the
lengths 1, 2, 3, 5, 8 and 13. -/
theorem iterateN_append_algae :
    ∃ built : System Unit, algae.build = .ok built ∧
      (∀ count, ((built.startingFrom [⟨"A", []⟩, ⟨"B", []⟩, ⟨"C", []⟩]).iterateN count).word =
        ((built.startingFrom [⟨"A", []⟩]).iterateN count).word ++
          ((built.startingFrom [⟨"B", []⟩, ⟨"C", []⟩]).iterateN count).word) ∧
      (∀ count symbol,
        (((built.startingFrom [⟨"B", []⟩, ⟨"C", [2]⟩]).iterateN count).word.map
            Letter.symbol).count symbol =
          (((built.startingFrom [⟨"B", []⟩]).iterateN count).word.map Letter.symbol).count symbol +
          (((built.startingFrom [⟨"C", [2]⟩]).iterateN count).word.map
            Letter.symbol).count symbol) ∧
      (List.range 6).map (fun count =>
        ((built.startingFrom [⟨"A", []⟩]).iterateN count).word.length) = [1, 2, 3, 5, 8, 13] := by
  obtain ⟨built, h, hchecked⟩ := Outcome.exists_of_map_toOption
    (show algae.build.toOption.map (fun built =>
        (decide (∀ rule ∈ built.rules, rule.IsContextFree),
          (List.range 6).map fun count =>
            ((built.startingFrom [⟨"A", []⟩]).iterateN count).word.length)) =
        some (true, [1, 2, 3, 5, 8, 13]) by decide +kernel)
  obtain ⟨hrules, hlengths⟩ := Prod.mk.inj hchecked
  obtain ⟨-, hword, -, hcount⟩ := iterateN_append (of_decide_eq_true hrules)
  have hparts := hword [⟨"A", []⟩] [⟨"B", []⟩, ⟨"C", []⟩]
  refine ⟨built, h, hparts, fun count symbol => ?_, hlengths⟩
  rw [hcount]
  simp

end System

end GrowthGrammar
