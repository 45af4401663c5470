import GrowthGrammar.Proofs.Production.Notation
import GrowthGrammar.Proofs.Production.Validity
import GrowthGrammar.Proofs.System.Registration

/-!
# Names that rules can refer to

An expression refers to a parameter by an identifier, so a rule can use the parameters that it names
only if its names are identifiers. Names come from the key of a production or, if the key has none,
from the production. Those of a key are checked: a key with another name is refused, for the first
such name, whichever call it is given to. Those of a production are not: they are kept as they are,
and no call is refused for them (`isReferable_iff_after`).
-/

set_option autoImplicit false

namespace GrowthGrammar

variable {κ : Type} {vocabulary : Vocabulary} {source : String} {production : Production}
  {rule : Rule}

/-- A rule whose parameters can all be referred to, each by its name. -/
def Rule.IsReferable (rule : Rule) : Prop :=
  ∀ name ∈ rule.params, Expression.parse name = .ok (.name name)

/-- A rule of one of some productions under its key. -/
def Rule.ComesFrom (vocabulary : Vocabulary) (entries : List (String × Production)) (rule : Rule) :
    Prop :=
  ∃ entry ∈ entries, entry.2.register vocabulary entry.1 = .ok rule

theorem Rule.isReferable_iff :
    rule.IsReferable ↔ ∀ name ∈ rule.params, isIdentifier name = true := by
  simp only [Rule.IsReferable, Expression.parse_eq_name_iff]

/-! ## Registration -/

/-- The names of a rule are those of the key if there are some, else those of the production. -/
theorem params_of_register (h : production.register vocabulary source = .ok rule) :
    ∃ key, Key.parse source = .ok key ∧
      rule.params = if key.params.isEmpty then production.params else key.params := by
  obtain ⟨key, surroundings, hkey, -, -, -, rfl⟩ := exists_of_register h
  exact ⟨key, hkey, rfl⟩

/-- Names in the key are identifiers, so only names on the production can be something else. -/
theorem isReferable_iff_of_register (h : production.register vocabulary source = .ok rule) :
    ∃ key, Key.parse source = .ok key ∧
      (rule.IsReferable ↔
        key.params ≠ [] ∨ ∀ name ∈ production.params, isIdentifier name = true) := by
  obtain ⟨key, hkey, hparams⟩ := params_of_register h
  refine ⟨key, hkey, ?_⟩
  rw [Rule.isReferable_iff, hparams]
  by_cases hnone : key.params = []
  · rw [if_pos (List.isEmpty_iff.2 hnone)]
    simp [hnone]
  · have hidentifiers := (Key.isWrittenAs_of_parse hkey).2.2.1
    rw [if_neg (mt List.isEmpty_iff.1 hnone)]
    exact iff_of_true hidentifiers (.inl hnone)

/-- A key that cannot be taken apart is all that a production under it is refused for. -/
theorem register_eq_malformedKey {fault : KeyFault} (h : Key.parse source = .error fault) :
    production.register vocabulary source = .error (.malformedKey source fault) := by
  unfold Production.register
  rw [h]
  rfl

/-- The names of a production have no part in its checks. -/
theorem register_with_params (names : List String) (error : ProductionError) :
    { production with params := names }.register vocabulary source = .error error ↔
      production.register vocabulary source = .error error := by
  unfold Production.register
  cases Key.parse source with
  | error fault => exact Iff.rfl
  | ok key =>
      dsimp only [Except.mapError, bind, Except.bind]
      split
      · exact Iff.rfl
      · split
        · cases production.successor.validate vocabulary key.symbol <;> simp [pure, Except.pure]
        · cases (production.context.getD key.context).resolve vocabulary with
          | error cause => exact Iff.rfl
          | ok surroundings =>
              dsimp only [Except.map]
              cases production.successor.validate vocabulary key.symbol <;>
                simp [pure, Except.pure]

namespace System

/-! ## Histories -/

/-- A call registers rules of its own productions only. -/
theorem comesFrom_after {system : System κ} (operations : List (Operation κ)) :
    ∀ rule ∈ (system.after operations).rules, rule ∈ system.rules ∨
      rule.ComesFrom system.vocabulary (operations.flatMap Operation.productions) := by
  induction operations generalizing system with
  | nil => exact fun rule hrule => .inl hrule
  | cons operation operations ih =>
      intro rule hrule
      have htransition := transition_perform system operation
      rw [after_cons] at hrule
      rw [List.flatMap_cons]
      rcases ih rule hrule with hnext | ⟨entry, hentry, hregister⟩
      · rcases htransition.rules rule hnext with hold | ⟨entry, hentry, hregister⟩
        · exact .inl hold
        · exact .inr ⟨entry, List.mem_append_left _ hentry, hregister⟩
      · rw [htransition.vocabulary] at hregister
        exact .inr ⟨entry, List.mem_append_right _ hentry, hregister⟩

/-- Every rule of a system was registered when it was built, or by a call since. -/
theorem comesFrom_of_mem_rules_after {origin : Origin κ} {built : System κ}
    (hbuilt : origin.build = .ok built) (operations : List (Operation κ)) :
    ∀ rule ∈ (built.after operations).rules, rule.ComesFrom built.vocabulary
      (origin.productions ++ operations.flatMap Operation.productions) := by
  intro rule hrule
  rcases comesFrom_after operations rule hrule with hold | ⟨entry, hentry, hregister⟩
  · obtain ⟨options, hoptions, hproductions⟩ := Origin.exists_options_of_build hbuilt
    obtain ⟨entry, hentry, hregister⟩ := (Options.yields_of_build hoptions).rules rule hold
    rw [hproductions] at hentry
    exact ⟨entry, List.mem_append_left _ hentry, hregister⟩
  · exact ⟨entry, List.mem_append_right _ hentry, hregister⟩

/-! ## Refused keys -/

/-- A production that is refused under every vocabulary makes every call fail that is given it. -/
theorem refused_of_register {error : ProductionError}
    (h : ∀ vocabulary, production.register vocabulary source = .error error) :
    (∀ system : System κ, system.setProduction source production = .error error) ∧
    (∀ (system : System κ) (productions : List (String × Production)),
      (source, production) ∈ productions →
        ∃ error, system.setProductions productions = .error error) ∧
    ∀ options : Options κ, (source, production) ∈ options.productions →
      ∃ error, options.build = .error error := by
  have hseveral (system : System κ) (productions : List (String × Production))
      (hmem : (source, production) ∈ productions) :
      ∃ error, system.setProductions productions = .error error := by
    cases hset : system.setProductions productions with
    | error error => exact ⟨error, rfl⟩
    | ok next =>
        have haccepted := (setProductions_eq_ok_iff.1 hset).1 _ hmem
        rw [registered?, h] at haccepted
        cases haccepted
  refine ⟨fun system => setProduction_eq_error_iff.2 (h _), hseveral, fun options hmem => ?_⟩
  cases hbuild : options.build with
  | error error => exact ⟨error, rfl⟩
  | ok built =>
      obtain ⟨-, -, started, ready, -, -, -, -, -, hready, -⟩ := Options.exists_of_build hbuild
      obtain ⟨error, herror⟩ := hseveral started options.productions hmem
      rw [herror] at hready
      cases hready

/-- **Names are checked in keys, and only there.** In any history of a system, a rule can refer to
all its parameters exactly when the key of its production names some, or the production has
identifiers for names. A key with a name that is no identifier is refused, for its first such name,
and so is every call that is given a production under it. The names on a production decide over no
call. -/
theorem isReferable_iff_after {origin : Origin κ} {built : System κ}
    (hbuilt : origin.build = .ok built) (operations : List (Operation κ)) {system : System κ}
    (hsystem : system = built.after operations) :
    (∀ rule ∈ system.rules,
      ∃ entry ∈ origin.productions ++ operations.flatMap Operation.productions,
        entry.2.register system.vocabulary entry.1 = .ok rule ∧
        ∃ key, Key.parse entry.1 = .ok key ∧
          (rule.IsReferable ↔
            key.params ≠ [] ∨ ∀ name ∈ entry.2.params, isIdentifier name = true)) ∧
    (∀ (key : Key) (source bad : String) (production : Production), key.IsPlain →
      Key.IsListable key.params → Text.compact source.toList = key.text →
      key.params.find? (fun name => !isIdentifier name) = some bad →
        system.setProduction source production = .error (.malformedKey source (.badParam bad)) ∧
        (∀ productions, (source, production) ∈ productions →
          ∃ error, system.setProductions productions = .error error) ∧
        ∀ options : Options κ, (source, production) ∈ options.productions →
          ∃ error, options.build = .error error) ∧
    ∀ source production names error,
      system.setProduction source { production with params := names } = .error error ↔
        system.setProduction source production = .error error := by
  refine ⟨?_, ?_, ?_⟩
  · intro rule hrule
    have hvocabulary : system.vocabulary = built.vocabulary := by
      rw [hsystem, vocabulary_after]
    rw [hsystem] at hrule
    rw [hvocabulary]
    obtain ⟨entry, hentry, hregister⟩ := comesFrom_of_mem_rules_after hbuilt operations rule hrule
    exact ⟨entry, hentry, hregister, isReferable_iff_of_register hregister⟩
  · intro key source bad production hkey hnames hsource hbad
    have hrefused (vocabulary : Vocabulary) : production.register vocabulary source =
        .error (.malformedKey source (.badParam bad)) :=
      register_eq_malformedKey (hkey.parse_eq_error hnames hbad hsource)
    obtain ⟨hone, hseveral, hbuild⟩ := refused_of_register hrefused
    exact ⟨hone system, hseveral system, hbuild⟩
  · intro source production names error
    rw [setProduction_eq_error_iff, setProduction_eq_error_iff]
    exact register_with_params names error

/-- A system with a production that names a parameter by what is no identifier. -/
def labelled : Options Unit where
  alphabet := ["A"]
  productions := [("A", ⟨.phrase "A", none, none, ["2x"]⟩)]

/-- A production whose key names the parameters, so that the name on the production is not used. -/
def relabel : List (Operation Unit) :=
  [.setProduction "A > A(x, y)" ⟨.phrase "A(x + y)", none, none, ["2x"]⟩]

/-- The labelled system with one more production, and a key with a name that is refused. -/
theorem isReferable_iff_after_relabel :
    ∃ built : System Unit, (Origin.options labelled).build = .ok built ∧
      (∀ rule ∈ (built.after relabel).rules,
        ∃ entry ∈ (Origin.options labelled).productions ++ relabel.flatMap Operation.productions,
          ∃ key, Key.parse entry.1 = .ok key ∧
            (rule.IsReferable ↔
              key.params ≠ [] ∨ ∀ name ∈ entry.2.params, isIdentifier name = true)) ∧
      (built.after relabel).setProduction "A(x, 2y)" ⟨.phrase "A", none, none, []⟩ =
        .error (.malformedKey "A(x, 2y)" (.badParam "2y")) ∧
      (built.after relabel).setProduction "A(x, 2y)" ⟨.phrase "A", none, none, ["x"]⟩ =
        .error (.malformedKey "A(x, 2y)" (.badParam "2y")) := by
  obtain ⟨built, h⟩ := Outcome.exists_of_isSome
    (show (Origin.options labelled).build.toOption.isSome = true by decide +kernel)
  obtain ⟨hrules, hkeys, hparams⟩ :=
    isReferable_iff_after h relabel (Eq.refl (built.after relabel))
  have hplain : Key.IsPlain ⟨"A", none, none, ["x", "2y"]⟩ :=
    { symbol_ne := by decide
      symbol := by simp
      before := by simp
      after := by simp }
  have hlistable : Key.IsListable ["x", "2y"] := ⟨by decide, by simp⟩
  have hrefused := (hkeys ⟨"A", none, none, ["x", "2y"]⟩ "A(x, 2y)" "2y"
    ⟨.phrase "A", none, none, []⟩ hplain hlistable (by decide +kernel) (by decide)).1
  refine ⟨built, h, fun rule hrule => ?_, hrefused, ?_⟩
  · obtain ⟨entry, hentry, -, hkey⟩ := hrules rule hrule
    exact ⟨entry, hentry, hkey⟩
  · exact (hparams "A(x, 2y)" ⟨.phrase "A", none, none, []⟩ ["x"] _).2 hrefused

/-- A rule of a system that has been built, with a parameter that nothing can refer to. -/
theorem exists_rule_not_isReferable :
    ∃ built : System Unit, labelled.build = .ok built ∧
      ∃ rule ∈ built.rules, "2x" ∈ rule.params ∧ Expression.parse "2x" ≠ .ok (.name "2x") := by
  obtain ⟨built, h, hparams⟩ := Outcome.exists_of_map_toOption
    (show labelled.build.toOption.map (fun built => built.rules.map Rule.params) = some [["2x"]] by
      decide +kernel)
  obtain ⟨rule, hrule, hnames⟩ := List.mem_map.1 (hparams ▸ List.mem_cons_self)
  refine ⟨built, h, rule, hrule, ?_, ?_⟩
  · rw [hnames]
    exact List.mem_cons_self
  · rw [ne_eq, Expression.parse_eq_name_iff]
    decide

end System

end GrowthGrammar
