import GrowthGrammar.Proofs.System.History
import GrowthGrammar.Proofs.System.Rewriting
import Mathlib.Data.List.Induction

/-!
# Registration order is priority

The rules of a system are those that were accepted since they were last dropped, in the order of the
calls (`rules_after`), and of these the first that does not decline an occurrence decides it
(`Setting.decided`). Setting several productions or defines at once comes to dropping the old ones and
setting the new ones one by one, up to the first that is refused (`setProductions_eq_foldlM`,
`setDefines_eq_foldlM`). `registered_in_order` puts this together.
-/

set_option autoImplicit false

namespace GrowthGrammar

variable {κ : Type}

/-! ## Calls that register -/

/-- The rule of a production under its key, unless it is refused. -/
def registered? (vocabulary : Vocabulary) (entry : String × Production) : Option Rule :=
  (entry.2.register vocabulary entry.1).toOption

namespace Operation

/-- Whether no production of an operation is refused. -/
def Accepts (vocabulary : Vocabulary) (operation : Operation κ) : Prop :=
  ∀ entry ∈ operation.productions, (registered? vocabulary entry).isSome = true

instance (vocabulary : Vocabulary) (operation : Operation κ) :
    Decidable (operation.Accepts vocabulary) :=
  inferInstanceAs (Decidable (∀ _ ∈ _, _))

/-- The rules that an operation adds, in order. If one of its productions is refused, it adds
none. -/
def accepted (vocabulary : Vocabulary) (operation : Operation κ) : List Rule :=
  if operation.Accepts vocabulary then operation.productions.filterMap (registered? vocabulary)
  else []

theorem accepted_eq_nil {vocabulary : Vocabulary} {operation : Operation κ}
    (h : operation.productions = []) : operation.accepted vocabulary = [] := by
  rw [accepted, h]
  simp

/-- Whether an operation drops the rules registered before it. -/
def Resets (vocabulary : Vocabulary) : Operation κ → Prop
  | .setProductions productions => (setProductions productions : Operation κ).Accepts vocabulary
  | .clearProductions => True
  | _ => False

end Operation

namespace System

/-! ## One call -/

/-- A system takes productions in all at once when none of them is refused. -/
theorem setProductions_eq_ok_iff {system next : System κ}
    {productions : List (String × Production)} :
    system.setProductions productions = .ok next ↔
      (Operation.setProductions productions : Operation κ).Accepts system.vocabulary ∧
        { system with rules := productions.filterMap (registered? system.vocabulary) } = next := by
  unfold setProductions
  rw [Outcome.bind_eq_ok_iff]
  constructor
  · rintro ⟨rules, hrules, heq⟩
    obtain ⟨haccepts, rfl⟩ := Outcome.mapM_eq_ok_iff_filterMap.1 hrules
    exact ⟨haccepts, Except.ok.inj heq⟩
  · rintro ⟨haccepts, heq⟩
    exact ⟨_, Outcome.mapM_eq_ok_iff_filterMap.2 ⟨haccepts, rfl⟩, congrArg Except.ok heq⟩

theorem setProduction_eq_error_iff {system : System κ} {key : String} {production : Production}
    {error : ProductionError} :
    system.setProduction key production = .error error ↔
      production.register system.vocabulary key = .error error := by
  unfold setProduction
  cases production.register system.vocabulary key <;> simp [bind, Except.bind, pure, Except.pure]

theorem exists_setProduction_iff {system : System κ} {key : String} {production : Production} :
    (∃ next, system.setProduction key production = .ok next) ↔
      ∃ rule, production.register system.vocabulary key = .ok rule := by
  unfold setProduction
  cases production.register system.vocabulary key <;> simp [bind, Except.bind, pure, Except.pure]

/-- Several productions are refused for the first of them that is refused on its own. -/
theorem setProductions_eq_error_iff {system : System κ} {productions : List (String × Production)}
    {error : ProductionError} :
    system.setProductions productions = .error error ↔
      ∃ front entry rest, productions = front ++ entry :: rest ∧
        (∀ earlier ∈ front, ∃ next, system.setProduction earlier.1 earlier.2 = .ok next) ∧
        system.setProduction entry.1 entry.2 = .error error := by
  have hmapM : system.setProductions productions = .error error ↔
      (productions.mapM fun entry => entry.2.register system.vocabulary entry.1) =
        .error error := by
    refine Outcome.bind_eq_error_iff.trans ⟨?_, .inl⟩
    rintro (h | ⟨rules, -, h⟩)
    · exact h
    · cases h
  simp only [hmapM, Outcome.mapM_eq_error_iff, exists_setProduction_iff,
    setProduction_eq_error_iff]

/-- A call that fails leaves the rules as they are, and so does one that does not touch them when it
succeeds. -/
theorem rules_orElse {ε α : Type} {system : System κ} {step : Except ε α} {next : α → System κ}
    (h : ∀ a, (next a).rules = system.rules) :
    (system.orElse (step >>= fun a => .ok (next a))).rules = system.rules := by
  cases step with
  | error e => rfl
  | ok a => exact h a

/-- A call that drops rules leaves only what it accepts itself. -/
theorem rules_perform_of_resets {system : System κ} {operation : Operation κ}
    (h : operation.Resets system.vocabulary) :
    (system.perform operation).rules = operation.accepted system.vocabulary := by
  cases operation with
  | setProductions productions =>
      have hnext := setProductions_eq_ok_iff.2 ⟨h, rfl⟩
      have haccepted : (Operation.setProductions productions : Operation κ).accepted
          system.vocabulary = productions.filterMap (registered? system.vocabulary) := if_pos h
      rw [perform, hnext, haccepted]
      rfl
  | clearProductions => rfl
  | _ => exact h.elim

/-- A production that is set goes behind the rules there are, unless it is refused. -/
theorem rules_perform_setProduction (system : System κ) (key : String) (production : Production) :
    let call : Operation κ := .setProduction key production
    (system.perform call).rules = system.rules ++ call.accepted system.vocabulary := by
  intro call
  cases hregister : production.register system.vocabulary key with
  | error error =>
      have hperform : system.perform call = system :=
        orElse_error (setProduction_eq_error_iff.2 hregister)
      have hrefused : ¬call.Accepts system.vocabulary := by
        simp [call, Operation.Accepts, Operation.productions, registered?, hregister,
          Except.toOption]
      rw [hperform, Operation.accepted, if_neg hrefused, List.append_nil]
  | ok rule =>
      have hperform : (system.perform call).rules = system.rules ++ [rule] := by
        rw [perform, setProduction, hregister]
        rfl
      have haccepted : call.accepted system.vocabulary = [rule] := by
        simp [call, Operation.accepted, Operation.Accepts, Operation.productions, registered?,
          hregister, Except.toOption]
      rw [hperform, haccepted]

/-- A call that does not drop rules puts what it accepts behind those there are. -/
theorem rules_perform_of_not_resets {system : System κ} {operation : Operation κ}
    (h : ¬operation.Resets system.vocabulary) :
    (system.perform operation).rules =
      system.rules ++ operation.accepted system.vocabulary := by
  -- most calls have no productions, and leave the rules as they are
  have hnone (hproductions : operation.productions = [])
      (hrules : (system.perform operation).rules = system.rules) :
      (system.perform operation).rules =
        system.rules ++ operation.accepted system.vocabulary := by
    rw [hrules, Operation.accepted_eq_nil hproductions, List.append_nil]
  cases operation with
  | setProduction key production => exact rules_perform_setProduction system key production
  | setProductions productions =>
      have hperform : system.perform (.setProductions productions) = system := by
        cases hresult : system.setProductions productions with
        | error error => exact orElse_error hresult
        | ok next => exact absurd (setProductions_eq_ok_iff.1 hresult).1 h
      have hrefused : (Operation.setProductions productions : Operation κ).accepted
          system.vocabulary = [] := if_neg h
      rw [hperform, hrefused, List.append_nil]
  | clearProductions => exact absurd trivial h
  | setWord source => exact hnone rfl (rules_orElse fun _ => rfl)
  | setDefine name value => exact hnone rfl (rules_orElse fun _ => rfl)
  | setDefines pairs => exact hnone rfl (rules_orElse fun _ => rfl)
  | _ => exact hnone rfl rfl

/-! ## Histories -/

/-- **A history.** The rules at its end are those accepted since the last call that dropped rules. -/
theorem rules_after {system : System κ} {call : Operation κ}
    (hcall : call.Resets system.vocabulary)
    (hrules : system.rules = call.accepted system.vocabulary) (operations : List (Operation κ)) :
    ∃ front last later, call :: operations = front ++ last :: later ∧
      last.Resets system.vocabulary ∧
      (∀ operation ∈ later, ¬operation.Resets system.vocabulary) ∧
      (system.after operations).rules =
        (last :: later).flatMap (Operation.accepted system.vocabulary) := by
  induction operations using List.reverseRecOn with
  | nil => exact ⟨[], call, [], rfl, hcall, by simp, by simpa using hrules⟩
  | append_singleton operations operation ih =>
      have hvocabulary := vocabulary_after system operations
      rw [after_concat]
      by_cases hresets : operation.Resets system.vocabulary
      · refine ⟨call :: operations, operation, [], rfl, hresets, by simp, ?_⟩
        rw [← hvocabulary] at hresets
        rw [rules_perform_of_resets hresets, hvocabulary]
        simp
      · obtain ⟨front, last, later, hsplit, hlast, hlater, hafter⟩ := ih
        refine ⟨front, last, later ++ [operation], ?_, hlast, ?_, ?_⟩
        · rw [← List.cons_append, hsplit, List.append_assoc, List.cons_append]
        · simpa [or_imp, forall_and] using ⟨hlater, hresets⟩
        · rw [← hvocabulary] at hresets
          rw [rules_perform_of_not_resets hresets, hafter, hvocabulary, ← List.cons_append,
            List.flatMap_append, List.flatMap_singleton]

/-! ## Several at once -/

/-- Productions that are set one by one are each put behind those before. -/
theorem foldlM_setProduction (system : System κ) (productions : List (String × Production)) :
    productions.foldlM (fun next entry => next.setProduction entry.1 entry.2) system =
      Except.map (fun rules => { system with rules := system.rules ++ rules })
        (productions.mapM fun entry => entry.2.register system.vocabulary entry.1) := by
  induction productions generalizing system with
  | nil =>
      show Except.ok system = Except.ok { system with rules := system.rules ++ [] }
      rw [List.append_nil]
  | cons entry productions ih =>
      rw [List.foldlM_cons, List.mapM_cons, setProduction]
      cases entry.2.register system.vocabulary entry.1 with
      | error error => rfl
      | ok rule =>
          refine (ih _).trans ?_
          dsimp only [bind, Except.bind]
          cases productions.mapM fun entry => entry.2.register system.vocabulary entry.1 with
          | error error => rfl
          | ok rules =>
              show Except.ok { system with rules := system.rules ++ [rule] ++ rules } =
                Except.ok { system with rules := system.rules ++ rule :: rules }
              rw [List.append_assoc, List.singleton_append]

theorem setProductions_eq_foldlM (system : System κ) (productions : List (String × Production)) :
    system.setProductions productions =
      productions.foldlM (fun next entry => next.setProduction entry.1 entry.2)
        system.clearProductions := by
  rw [foldlM_setProduction]
  rfl

theorem foldlM_setDefine (system : System κ) (pairs : List (String × Float)) :
    pairs.foldlM (fun next pair => next.setDefine pair.1 pair.2) system =
      (system.defines.defineAll pairs).map fun defines => { system with defines } := by
  induction pairs generalizing system with
  | nil => rfl
  | cons pair pairs ih =>
      rw [List.foldlM_cons, Defines.defineAll, List.foldlM_cons, setDefine]
      cases system.defines.define pair.1 pair.2 with
      | error error => rfl
      | ok defines => exact ih _

theorem setDefines_eq_foldlM (system : System κ) (pairs : List (String × Float)) :
    system.setDefines pairs =
      pairs.foldlM (fun next pair => next.setDefine pair.1 pair.2) system.clearDefines := by
  rw [foldlM_setDefine]
  rfl

end System

/-! ## The rule that decides -/

namespace Setting

/-- What one rule makes of an occurrence. -/
def deriveBy (setting : Setting) (rule : Rule) (occurrence : Occurrence) :
    Except DerivationError Word :=
  match setting.resolve rule occurrence with
  | .error error => .error error
  | .ok .noMatch => .ok [occurrence.letter]
  | .ok (.replace source) => setting.normalize source

/-- What the first of some rules that does not decline an occurrence makes of it. Nothing becomes of
an occurrence that all of them decline. -/
def decided (setting : Setting) (rules : List Rule) (occurrence : Occurrence) :
    Except DerivationError Word :=
  match rules.find? fun rule => setting.resolve rule occurrence ≠ .ok .noMatch with
  | some rule => setting.deriveBy rule occurrence
  | none => .ok [occurrence.letter]

variable {setting : Setting}

theorem decided_eq (rules : List Rule) (occurrence : Occurrence) :
    setting.decided rules occurrence =
      (setting.replacement? rules occurrence).map (·.getD [occurrence.letter]) := by
  induction rules with
  | nil => rfl
  | cons rule rules ih =>
      unfold decided replacement? at ih ⊢
      rw [List.find?_cons, resolveFirst]
      cases hresolve : setting.resolve rule occurrence with
      | error error => simp [deriveBy, hresolve, Except.map, bind, Except.bind]
      | ok resolution =>
          cases resolution with
          | noMatch => simpa using ih
          | replace source =>
              simp only [ne_eq, reduceCtorEq, not_false_eq_true, decide_true, deriveBy, hresolve,
                bind, Except.bind, Except.ok.injEq]
              cases setting.normalize source <;> rfl

/-- What is derived from an occurrence is decided by the rules of its symbol. -/
theorem derive_eq_decided (rules : List Rule) (occurrence : Occurrence) :
    setting.derive rules occurrence =
      setting.decided (rulesFor rules occurrence.letter.symbol) occurrence := by
  rw [derive_eq, decided_eq]

theorem image_eq_decided (rules : List Rule) (occurrence : Occurrence) :
    setting.image rules occurrence =
      (setting.decided (rulesFor rules occurrence.letter.symbol) occurrence).toOption.getD
        [occurrence.letter] := by
  rw [image, derive_eq_decided]
  cases setting.decided (rulesFor rules occurrence.letter.symbol) occurrence <;> rfl

end Setting

namespace Origin

/-- The productions that are asked for, in order. -/
def productions : Origin κ → List (String × Production)
  | .options o => o.productions
  | .definition d => d.productions.filterMap fun spec =>
      spec.production.toOption.map fun production => (spec.key, production)

/-- What is built is built from options with the productions that are asked for. -/
theorem exists_options_of_build {origin : Origin κ} {built : System κ}
    (h : origin.build = .ok built) :
    ∃ options : Options κ, options.build = .ok built ∧
      options.productions = origin.productions := by
  cases origin with
  | options o => exact ⟨o, Outcome.mapError_eq_ok_iff.1 h, rfl⟩
  | definition d =>
      obtain ⟨options, hoptions, hbuild⟩ := Outcome.bind_eq_ok_iff.1 h
      refine ⟨options, Outcome.mapError_eq_ok_iff.1 hbuild, ?_⟩
      obtain ⟨iterations, -, hoptions⟩ := Outcome.bind_eq_ok_iff.1 hoptions
      obtain ⟨productions, hproductions, hoptions⟩ := Outcome.bind_eq_ok_iff.1 hoptions
      cases hoptions
      show productions = _
      rw [← (Outcome.mapM_eq_ok_iff_filterMap.1 hproductions).2]
      congr 1
      funext spec
      cases spec.production <;> rfl

end Origin

namespace System

/-- A system is built with the rules of its productions, none of which is refused. -/
theorem rules_of_build {origin : Origin κ} {built : System κ} (h : origin.build = .ok built) :
    let call : Operation κ := .setProductions origin.productions
    call.Resets built.vocabulary ∧ built.rules = call.accepted built.vocabulary := by
  obtain ⟨options, hbuild, hproductions⟩ := Origin.exists_options_of_build h
  obtain ⟨vocabulary, defined, started, ready, -, -, -, -, -, hready, rfl⟩ :=
    Options.exists_of_build hbuild
  rw [hproductions] at hready
  obtain ⟨haccepts, rfl⟩ := setProductions_eq_ok_iff.1 hready
  have hresets : (Operation.setProductions origin.productions : Operation κ).Resets
      started.vocabulary := haccepts
  have hrules := rules_perform_of_resets hresets
  rw [perform, hready] at hrules
  exact ⟨hresets, hrules⟩

/-- A pass over the word that passes have left, with what its rules decide. -/
theorem decided_iterateN (system : System κ) (count : Nat) :
    let grown := (system.iterateN count).word
    let outcome (occurrence : Occurrence) :=
      system.setting.decided (system.productionsFor occurrence.letter.symbol) occurrence
    (system.iterateN (count + 1)).word = grown.occurrences.flatMap (fun occurrence =>
      (outcome occurrence).toOption.getD [occurrence.letter]) ∧
    ∀ occurrence ∈ grown.occurrences, ∀ error, outcome occurrence = .error error ↔
      ⟨count, occurrence.index, occurrence.letter.symbol, error⟩ ∈
        (system.iterateN (count + 1)).diagnostics := by
  intro grown outcome
  constructor
  · rw [word_iterateN_succ]
    congr 1
    funext occurrence
    exact Setting.image_eq_decided system.rules occurrence
  · intro occurrence hoccurrence error
    obtain ⟨i, rfl⟩ := Word.mem_occurrences_iff.1 hoccurrence
    have houtcome : system.setting.derive system.rules (grown.occurrence i) =
        outcome (grown.occurrence i) := Setting.derive_eq_decided _ _
    have hmem : (⟨count, i, (grown.occurrence i).letter.symbol, error⟩ : Diagnostic) ∈
        (system.iterateN (count + 1)).diagnostics ↔ count < count + 1 ∧
          system.setting.FailsAt system.rules grown
            ⟨count, i, (grown.occurrence i).letter.symbol, error⟩ :=
      mem_diagnostics_iterate
    rw [← houtcome, Setting.derive_eq_error_iff]
    refine Iff.trans ?_ hmem.symm
    constructor
    · intro hsettles
      exact ⟨Nat.lt_succ_self count, i, rfl, rfl, hsettles⟩
    · rintro ⟨-, j, hj, -, hsettles⟩
      obtain rfl : i = j := Fin.ext hj
      exact hsettles

/-- **Registration order is priority.** After any history of a system, the rules of a symbol are those
accepted by the last call that dropped all rules before it and by the calls since, in their order;
the productions that the system is built with count as the first call. A call that fails changes
nothing, and several productions fail together with the error of the first that is refused on its own.
In every pass, the first rule of a symbol that does not decline an occurrence decides it: its word is
put, or its error is listed and the letter stays. Setting all productions, or all defines, is dropping
the old ones and setting the new ones one by one, and it fails if one of these calls does. -/
theorem registered_in_order {origin : Origin κ} {built : System κ}
    (hbuilt : origin.build = .ok built) (operations : List (Operation κ)) {system : System κ}
    (hsystem : system = built.after operations) :
    (∃ front last later,
      .setProductions origin.productions :: operations = front ++ last :: later ∧
      last.Resets system.vocabulary ∧
      (∀ operation ∈ later, ¬operation.Resets system.vocabulary) ∧
      ∀ symbol, system.productionsFor symbol =
        ((last :: later).flatMap (Operation.accepted system.vocabulary)).filter
          (·.symbol = symbol)) ∧
    (∀ key production error, system.setProduction key production = .error error →
      system.perform (.setProduction key production) = system) ∧
    (∀ productions error, system.setProductions productions = .error error →
      system.perform (.setProductions productions) = system) ∧
    (∀ productions error, system.setProductions productions = .error error ↔
      ∃ front entry rest, productions = front ++ entry :: rest ∧
        (∀ earlier ∈ front, ∃ next, system.setProduction earlier.1 earlier.2 = .ok next) ∧
        system.setProduction entry.1 entry.2 = .error error) ∧
    (∀ count,
      let grown := (system.iterateN count).word
      let outcome (occurrence : Occurrence) :=
        system.setting.decided (system.productionsFor occurrence.letter.symbol) occurrence
      (system.iterateN (count + 1)).word = grown.occurrences.flatMap (fun occurrence =>
        (outcome occurrence).toOption.getD [occurrence.letter]) ∧
      ∀ occurrence ∈ grown.occurrences, ∀ error, outcome occurrence = .error error ↔
        ⟨count, occurrence.index, occurrence.letter.symbol, error⟩ ∈
          (system.iterateN (count + 1)).diagnostics) ∧
    (∀ productions, system.setProductions productions =
      productions.foldlM (fun next entry => next.setProduction entry.1 entry.2)
        system.clearProductions) ∧
    (∀ pairs, system.setDefines pairs =
      pairs.foldlM (fun next pair => next.setDefine pair.1 pair.2) system.clearDefines) ∧
    ∀ pairs error, system.setDefines pairs = .error error →
      system.perform (.setDefines pairs) = system := by
  refine ⟨?_, fun _ _ _ => orElse_error, fun _ _ => orElse_error,
    fun _ _ => setProductions_eq_error_iff, decided_iterateN system,
    setProductions_eq_foldlM system, setDefines_eq_foldlM system, fun _ _ => orElse_error⟩
  obtain ⟨hresets, hrules⟩ := rules_of_build hbuilt
  have hvocabulary : system.vocabulary = built.vocabulary := by
    rw [hsystem, vocabulary_after]
  obtain ⟨front, last, later, hsplit, hlast, hlater, hafter⟩ :=
    rules_after hresets hrules operations
  rw [hvocabulary]
  refine ⟨front, last, later, hsplit, hlast, hlater, fun symbol => ?_⟩
  rw [productionsFor, hsystem, hafter, rulesFor]

/-- A system whose first production of `A` needs a parameter, so that it fails without one. -/
def drafting : Options Unit where
  alphabet := ["A", "B"]
  word := some (.phrase "ABA")
  productions := [("A(p)", ⟨.phrase "B(p)", none, none, []⟩)]

/-- Productions that are taken, and some that are refused, alone and in the middle of several. The
third call replaces all before it. -/
def redraft : List (Operation Unit) :=
  [.setProduction "B" ⟨.phrase "BB", none, none, []⟩,
    .iterate,
    .setProductions [("A > B", ⟨.phrase "BA", none, none, []⟩), ("B", ⟨.phrase "A", none, none, []⟩)],
    .setProductions [("A", ⟨.phrase "A", none, none, []⟩), ("C", ⟨.phrase "A", none, none, []⟩),
      ("?", ⟨.phrase "A", none, none, []⟩)],
    .setProduction "C" ⟨.phrase "A", none, none, []⟩,
    .setProduction "A(p, q)" ⟨.phrase "B(p + q)", none, none, []⟩,
    .setProduction "A" ⟨.phrase "A", none, none, []⟩]

/-- The drafting system at the end of its history. The context of the first rule of `A` declines the
last letter, and the second rule fails there, so that the third is not tried. -/
theorem registered_in_order_redraft :
    ∃ built system : System Unit, (Origin.options drafting).build = .ok built ∧
      system = built.after redraft ∧
      (system.productionsFor "A").map Rule.params = [[], ["p", "q"], []] ∧
      (system.iterateN 1).diagnostics = [⟨0, 3, "A", .arity ⟨"A", 2, 0⟩⟩] ∧
      (∃ front last later,
        .setProductions drafting.productions :: redraft = front ++ last :: later ∧
        last.Resets system.vocabulary ∧
        (∀ operation ∈ later, ¬operation.Resets system.vocabulary) ∧
        ∀ symbol, system.productionsFor symbol =
          ((last :: later).flatMap (Operation.accepted system.vocabulary)).filter
            (·.symbol = symbol)) ∧
      let grown := (system.iterateN 0).word
      let outcome (occurrence : Occurrence) :=
        system.setting.decided (system.productionsFor occurrence.letter.symbol) occurrence
      (system.iterateN 1).word = grown.occurrences.flatMap (fun occurrence =>
        (outcome occurrence).toOption.getD [occurrence.letter]) ∧
      ∀ occurrence ∈ grown.occurrences, ∀ error, outcome occurrence = .error error ↔
        ⟨0, occurrence.index, occurrence.letter.symbol, error⟩ ∈
          (system.iterateN 1).diagnostics := by
  have hcheck : (Origin.options drafting).build.toOption.map (fun built =>
      let system := built.after redraft
      decide ((system.productionsFor "A").map Rule.params = [[], ["p", "q"], []] ∧
        (system.iterateN 1).diagnostics = [⟨0, 3, "A", .arity ⟨"A", 2, 0⟩⟩])) = some true := by
    decide +kernel
  obtain ⟨built, h, hcheck⟩ := Outcome.exists_of_map_toOption hcheck
  obtain ⟨hparams, hdiagnostics⟩ := of_decide_eq_true hcheck
  obtain ⟨haccepted, -, -, -, hpass, -⟩ := registered_in_order h redraft rfl
  refine ⟨built, _, h, rfl, hparams, hdiagnostics, haccepted, ?_⟩
  exact hpass 0

end System

end GrowthGrammar
