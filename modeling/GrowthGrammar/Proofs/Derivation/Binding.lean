import GrowthGrammar.Proofs.Derivation.Errors
import GrowthGrammar.Proofs.Derivation.Nesting
import GrowthGrammar.Proofs.Expression.Defines
import GrowthGrammar.Proofs.System.Naming

/-!
# What the names in a phrase stand for

A phrase that is put for a letter is read with the names of the rule bound to the parameters of the
letter, place by place, in front of the defines. There must be as many of the one as of the other. A
name that is declared at several places has the parameter at the last of them, so every name has the
parameter at its own place exactly if no name stands at places with different parameters
(`resolve_binds_params`). Registration takes names that repeat, and the parameters at all but the last
place are lost (`exists_parameter_lost`).
-/

set_option autoImplicit false

namespace GrowthGrammar

/-! ## Looking up what is bound -/

namespace Scope

variable {scope : Scope} {defines : Defines} {symbol name : String} {names : List String}
  {values : List Float} {value : Float}

theorem bind_of_length_eq (hnamed : names ≠ []) (hlength : names.length = values.length) :
    Scope.bind defines symbol names values = .ok ⟨defines, names.zip values⟩ := by
  rw [bind, if_neg (mt List.isEmpty_iff.1 hnamed), if_neg (not_not.2 hlength)]

/-- Of several bindings of one name the last counts. -/
theorem lookup_of_last {before after : List (String × Float)}
    (hbound : scope.bound = before ++ (name, value) :: after)
    (hlast : name ∉ after.map Prod.fst) : scope.lookup name = some value := by
  have hfound : scope.bound.reverse.lookup name = some value := by
    rw [List.lookup_eq_some_iff]
    refine ⟨after.reverse, before.reverse, ?_, fun binding hbinding => ?_⟩
    · rw [hbound]
      simp
    · rw [bne_iff_ne]
      rintro rfl
      exact hlast (List.mem_map_of_mem (List.mem_reverse.1 hbinding))
  rw [lookup, hfound]

/-- A name that is not bound is looked up in the defines. -/
theorem lookup_of_not_bound (h : name ∉ scope.bound.map Prod.fst) :
    scope.lookup name = (Scope.ofDefines scope.global).lookup name := by
  have hnone : scope.bound.reverse.lookup name = none := by
    rw [List.lookup_eq_none_iff]
    intro binding hbinding
    rw [bne_iff_ne]
    rintro rfl
    exact h (List.mem_map_of_mem (List.mem_reverse.1 hbinding))
  rw [lookup, hnone]
  rfl

/-- A name that is bound has one of the values it is bound to. -/
theorem exists_lookup_of_mem (h : (name, value) ∈ scope.bound) :
    ∃ found, (name, found) ∈ scope.bound ∧ scope.lookup name = some found := by
  have hsome : (scope.bound.reverse.lookup name).isSome = true := by
    rw [List.lookup_isSome_iff]
    exact ⟨(name, value), List.mem_reverse.2 h, BEq.rfl⟩
  obtain ⟨found, hfound⟩ := Option.isSome_iff_exists.1 hsome
  obtain ⟨before, after, hsplit, -⟩ := List.lookup_eq_some_iff.1 hfound
  refine ⟨found, ?_, by rw [lookup, hfound]⟩
  rw [← List.mem_reverse, hsplit]
  simp

/-- Every binding can be looked up exactly if no name is bound to two values. -/
theorem lookup_bound_iff (scope : Scope) :
    (∀ binding ∈ scope.bound, scope.lookup binding.1 = some binding.2) ↔
      ∀ first ∈ scope.bound, ∀ second ∈ scope.bound,
        first.1 = second.1 → first.2 = second.2 := by
  constructor
  · intro h first hfirst second hsecond hname
    have hboth := (h first hfirst).symm.trans (hname ▸ h second hsecond)
    exact Option.some.inj hboth
  · rintro h ⟨name, value⟩ hbinding
    obtain ⟨found, hmem, hfound⟩ := exists_lookup_of_mem hbinding
    exact hfound.trans (congrArg some (h _ hmem _ hbinding rfl))

end Scope

/-! ## Evaluating what is bound -/

namespace Expression

variable {lookup other : String → Option Float} {name : String} {value : Float}

theorem evaluate_name_eq_ok_iff (h : isIdentifier name = true) :
    evaluate lookup name = .ok value ↔ lookup name = some value ∧ value.isFinite = true := by
  cases hlookup : lookup name with
  | none => simp [evaluate_name_of_none h hlookup]
  | some found =>
      rw [evaluate_name h hlookup]
      by_cases hfinite : found.isFinite = true
      · rw [if_pos hfinite]
        simp only [Except.ok.injEq, Option.some.injEq, iff_self_and]
        rintro rfl
        exact hfinite
      · rw [if_neg hfinite]
        simp only [reduceCtorEq, Option.some.injEq, false_iff, not_and]
        rintro rfl
        exact hfinite

theorem evaluate_name_congr (h : isIdentifier name = true) (hlookup : lookup name = other name) :
    evaluate lookup name = evaluate other name := by
  have hmentioned : mentioned name = [name] := by
    rw [mentioned, parse_eq_name_iff.2 h]
    rfl
  refine evaluate_congr ?_
  rw [hmentioned]
  exact List.forall_mem_singleton.2 hlookup

end Expression

/-- What names stand for in a scope that puts values for them in front of some defines. -/
structure Scope.Overlays (scope : Scope) (defines : Defines) (names : List String)
    (values : List Float) : Prop where
  /-- A name has the value at its last place. -/
  last : ∀ before name value after, names.zip values = before ++ (name, value) :: after →
    name ∉ after.map Prod.fst → Expression.evaluate scope.lookup name = .ok value
  /-- Every name has the value at its own place if no two places with one name differ in their
  values, and only then. -/
  each_iff :
    (∀ binding ∈ names.zip values, Expression.evaluate scope.lookup binding.1 = .ok binding.2) ↔
      ∀ first ∈ names.zip values, ∀ second ∈ names.zip values,
        first.1 = second.1 → first.2 = second.2
  /-- So it does if the names are distinct. -/
  each_of_nodup : names.Nodup →
    ∀ binding ∈ names.zip values, Expression.evaluate scope.lookup binding.1 = .ok binding.2
  /-- Any other name stands for what it stands for in the defines. -/
  other : ∀ name, isIdentifier name = true → name ∉ names →
    Expression.evaluate scope.lookup name =
      Expression.evaluate (Scope.ofDefines defines).lookup name

theorem Scope.overlays_zip (defines : Defines) {names : List String} {values : List Float}
    (hlength : names.length = values.length)
    (hidentifiers : ∀ name ∈ names, isIdentifier name = true)
    (hfinite : ∀ value ∈ values, value.isFinite = true) :
    Scope.Overlays ⟨defines, names.zip values⟩ defines names values := by
  have hnames : (names.zip values).map Prod.fst = names :=
    List.map_fst_zip hlength.le
  have hread : ∀ binding ∈ names.zip values,
      (Expression.evaluate (Scope.lookup ⟨defines, names.zip values⟩) binding.1 = .ok binding.2 ↔
        Scope.lookup ⟨defines, names.zip values⟩ binding.1 = some binding.2) := by
    rintro ⟨name, value⟩ hbinding
    obtain ⟨hname, hvalue⟩ := List.of_mem_zip hbinding
    rw [Expression.evaluate_name_eq_ok_iff (hidentifiers name hname)]
    exact and_iff_left (hfinite value hvalue)
  have hiff := (forall₂_congr hread).trans
    (Scope.lookup_bound_iff ⟨defines, names.zip values⟩)
  refine ⟨?_, hiff, fun hnodup => hiff.2 ?_, ?_⟩
  · intro before name value after hsplit hlast
    have hmem : (name, value) ∈ names.zip values := by
      rw [hsplit]
      simp
    exact (hread _ hmem).2 (Scope.lookup_of_last hsplit hlast)
  · intro first hfirst second hsecond hname
    rw [← hnames] at hnodup
    rw [List.inj_on_of_nodup_map hnodup hfirst hsecond hname]
  · intro name hname hnot
    refine Expression.evaluate_name_congr hname (Scope.lookup_of_not_bound ?_)
    rwa [hnames]

/-! ## Putting a phrase -/

namespace Setting

variable {setting : Setting} {rule : Rule} {occurrence : Occurrence} {text : String}
  {path : List (List (Successor × Float) × Nat)}

/-- Where the draws lead to a phrase, that phrase is put. -/
theorem resolve_of_leadsTo_phrase (hadmits : setting.admits rule occurrence = true)
    (hpath : rule.successor.LeadsTo path (.phrase text))
    (hdrawn : ∀ step ∈ path,
      setting.sampler (seed occurrence) (step.1.map Prod.snd) = .ok step.2) :
    setting.resolve rule occurrence = setting.resolveLeaf rule.params occurrence (.phrase text) := by
  rw [resolve, if_pos hadmits, hpath.leaf_descend hdrawn, Successor.descend]

theorem resolveLeaf_phrase_of_bind {params : List String} {scope : Scope}
    (hbound : Scope.bind setting.defines occurrence.letter.symbol params occurrence.letter.params =
      .ok scope) :
    setting.resolveLeaf params occurrence (.phrase text) =
      ((Phrase.tokenize setting.vocabulary scope.lookup text).mapError .phrase).map
        fun word => .replace (.word word) := by
  rw [resolveLeaf, hbound]
  show ((Phrase.tokenize setting.vocabulary scope.lookup text).mapError DerivationError.phrase >>=
    _) = _
  cases Phrase.tokenize setting.vocabulary scope.lookup text <;> rfl

theorem resolveLeaf_phrase_of_mismatch {params : List String} {mismatch : ArityMismatch}
    (hbound : Scope.bind setting.defines occurrence.letter.symbol params occurrence.letter.params =
      .error mismatch) :
    setting.resolveLeaf params occurrence (.phrase text) = .error (.arity mismatch) := by
  rw [resolveLeaf, hbound]
  rfl

/-- **Names in a phrase.** The names of a rule are those of its key, or else of its production.
Where the draws for a letter lead to a phrase, at the top of the rule or inside sets of alternatives,
and the letter has as many parameters as there are names, the phrase is read in a scope that puts the
parameters for the names. With any other number of parameters nothing is bound, and the error names
both numbers. -/
theorem resolve_binds_params (setting : Setting) {vocabulary : Vocabulary} {source : String}
    {production : Production} {rule : Rule}
    (hregister : production.register vocabulary source = .ok rule) (hnamed : rule.params ≠ [])
    (hidentifiers : ∀ name ∈ rule.params, isIdentifier name = true) {occurrence : Occurrence}
    (hadmits : setting.admits rule occurrence = true)
    {path : List (List (Successor × Float) × Nat)} {text : String}
    (hpath : production.successor.LeadsTo path (.phrase text))
    (hdrawn : ∀ step ∈ path,
      setting.sampler (seed occurrence) (step.1.map Prod.snd) = .ok step.2) :
    (∃ key, Key.parse source = .ok key ∧
      rule.params = if key.params.isEmpty then production.params else key.params) ∧
    (rule.params.length = occurrence.letter.params.length →
      (∀ value ∈ occurrence.letter.params, value.isFinite = true) →
        ∃ scope : Scope, scope.Overlays setting.defines rule.params occurrence.letter.params ∧
          setting.resolve rule occurrence =
            ((Phrase.tokenize setting.vocabulary scope.lookup text).mapError .phrase).map
              fun word => .replace (.word word)) ∧
    (rule.params.length ≠ occurrence.letter.params.length →
      setting.resolve rule occurrence = .error (.arity
        ⟨occurrence.letter.symbol, rule.params.length, occurrence.letter.params.length⟩)) := by
  rw [← successor_of_register hregister] at hpath
  rw [resolve_of_leadsTo_phrase hadmits hpath hdrawn]
  refine ⟨params_of_register hregister, fun hlength hfinite => ?_, fun hlength => ?_⟩
  · exact ⟨_, Scope.overlays_zip setting.defines hlength hidentifiers hfinite,
      resolveLeaf_phrase_of_bind (Scope.bind_of_length_eq hnamed hlength)⟩
  · exact resolveLeaf_phrase_of_mismatch (Scope.bind_eq_error_iff.2 ⟨hnamed, hlength, rfl⟩)

/-- A rule without restrictions applies everywhere. -/
theorem admits_of_unrestricted (hsurroundings : rule.surroundings = none)
    (hcondition : rule.condition.isSome = false) : setting.admits rule occurrence = true := by
  rw [Option.isSome_eq_false_iff, Option.isNone_iff_eq_none] at hcondition
  rw [admits, hsurroundings, hcondition]
  rfl

theorem exists_unrestricted {ε : Type} {registered : Except ε Rule} {params : List String}
    (h : registered.toOption.map
        (fun rule => (rule.params, rule.surroundings, rule.condition.isSome)) =
      some (params, none, false)) :
    ∃ rule, registered = .ok rule ∧ rule.params = params ∧
      ∀ (setting : Setting) (occurrence : Occurrence), setting.admits rule occurrence = true := by
  obtain ⟨rule, hrule, hfields⟩ := Outcome.exists_of_map_toOption h
  simp only [Prod.mk.injEq] at hfields
  obtain ⟨hparams, hsurroundings, hcondition⟩ := hfields
  exact ⟨rule, hrule, hparams, fun _ _ => admits_of_unrestricted hsurroundings hcondition⟩

/-- The letters and marks that are read unless others are given, no defines, and the sampler in
use. -/
def standard : Setting :=
  ⟨⟨latinCapitals, drawingMarks⟩, Table.empty, Sampler.seeded⟩

/-- A phrase with the parameters of F doubled, or one with the parameters exchanged. -/
def exchange : List (Successor × Float) :=
  [(.phrase "F(2*x,2*y)", 1), (.phrase "F(y,x)", 1)]

/-- The names x and y, for the letters F(1,2) and F(1). -/
theorem resolve_binds_params_exchange :
    ∃ rule, Production.register standard.vocabulary "F(x,y)" ⟨.stochastic exchange, none, none, []⟩ =
        .ok rule ∧
      (∃ scope : Scope, Expression.evaluate scope.lookup "x" = .ok 1 ∧
        Expression.evaluate scope.lookup "y" = .ok 2 ∧
        standard.resolve rule ⟨[⟨"F", [1, 2]⟩], 0, ⟨"F", [1, 2]⟩⟩ =
          ((Phrase.tokenize standard.vocabulary scope.lookup "F(y,x)").mapError .phrase).map
            fun word => .replace (.word word)) ∧
      standard.resolve rule ⟨[⟨"F", [1]⟩], 0, ⟨"F", [1]⟩⟩ = .error (.arity ⟨"F", 2, 1⟩) := by
  obtain ⟨rule, hrule, hparams, hadmits⟩ := exists_unrestricted
    (show (Production.register standard.vocabulary "F(x,y)"
      ⟨.stochastic exchange, none, none, []⟩).toOption.map _ = some (["x", "y"], none, false) by
        decide +kernel)
  have hnamed : rule.params ≠ [] := by
    simp [hparams]
  have hidentifiers : ∀ name ∈ rule.params, isIdentifier name = true := by
    rw [hparams]
    decide
  have hpath : (Successor.stochastic exchange).LeadsTo [(exchange, 1)] (.phrase "F(y,x)") :=
    .into rfl (.here _)
  have hdrawn : ∀ step ∈ [(exchange, 1)],
      Sampler.seeded (occurrenceSeed "F" 0) (step.1.map Prod.snd) = .ok step.2 :=
    List.forall_mem_singleton.2 (by decide +kernel)
  refine ⟨rule, hrule, ?_, ?_⟩
  · obtain ⟨-, hbinds, -⟩ := resolve_binds_params standard hrule hnamed hidentifiers
      (hadmits _ ⟨[⟨"F", [1, 2]⟩], 0, ⟨"F", [1, 2]⟩⟩) hpath hdrawn
    obtain ⟨scope, hoverlays, hresolve⟩ := hbinds (by rw [hparams]; rfl) (by decide +kernel)
    have heach := hoverlays.each_of_nodup (by rw [hparams]; decide)
    rw [hparams] at heach
    exact ⟨scope, heach ("x", 1) (by simp), heach ("y", 2) (by simp), hresolve⟩
  · obtain ⟨-, -, hmismatch⟩ := resolve_binds_params standard hrule hnamed hidentifiers
      (hadmits _ ⟨[⟨"F", [1]⟩], 0, ⟨"F", [1]⟩⟩) hpath hdrawn
    rw [hmismatch (by simp [hparams]), hparams]
    rfl

/-- The name x for both parameters of F(1,2): the first of them is lost. -/
theorem exists_parameter_lost :
    ∃ rule, Production.register standard.vocabulary "F(x,x)" ⟨.phrase "F(x)", none, none, []⟩ =
        .ok rule ∧
      rule.params = ["x", "x"] ∧ isIdentifier "x" = true ∧
      ∃ scope, Scope.bind standard.defines "F" rule.params [1, 2] = .ok scope ∧
        Expression.evaluate scope.lookup "x" = .ok 2 ∧
        Expression.evaluate scope.lookup "x" ≠ .ok 1 ∧
        standard.resolve rule ⟨[⟨"F", [1, 2]⟩], 0, ⟨"F", [1, 2]⟩⟩ =
          .ok (.replace (.word [⟨"F", [2]⟩])) := by
  obtain ⟨rule, hrule, hparams, hadmits⟩ := exists_unrestricted
    (show (Production.register standard.vocabulary "F(x,x)"
      ⟨.phrase "F(x)", none, none, []⟩).toOption.map _ = some (["x", "x"], none, false) by
        decide +kernel)
  have hbound : Scope.bind standard.defines "F" rule.params [1, 2] =
      .ok ⟨Table.empty, [("x", 1), ("x", 2)]⟩ := by
    rw [hparams]
    rfl
  have hvalue : Expression.evaluate (Scope.lookup ⟨Table.empty, [("x", 1), ("x", 2)]⟩) "x" =
      .ok 2 := by
    decide +kernel
  have hpath : rule.successor.LeadsTo [] (.phrase "F(x)") := by
    rw [successor_of_register hrule]
    exact .here _
  have hword : Phrase.tokenize standard.vocabulary
      (Scope.lookup ⟨Table.empty, [("x", 1), ("x", 2)]⟩) "F(x)" = .ok [⟨"F", [2]⟩] := by
    decide +kernel
  refine ⟨rule, hrule, hparams, by decide, _, hbound, hvalue, ?_, ?_⟩
  · rw [hvalue]
    decide +kernel
  · rw [resolve_of_leadsTo_phrase (hadmits _ _) hpath (List.forall_mem_nil _),
      resolveLeaf_phrase_of_bind hbound, hword]
    rfl

end Setting

end GrowthGrammar
