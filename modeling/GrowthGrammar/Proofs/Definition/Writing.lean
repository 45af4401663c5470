import GrowthGrammar.Proofs.Document
import GrowthGrammar.Proofs.Table

/-!
# Definitions are read back

A definition that is written as JSON is read as itself (`decodes_jsonText`), if its numbers are. A
field is left out exactly if it has the value that its absence is read as: an option that is set to
an empty list or to an empty context is written and so stays apart from one that is not set.
-/

set_option autoImplicit false

namespace GrowthGrammar

open Json (node)

theorem asNumber_of_reread? {x : Float} (h : Json.reread? x = some x) :
    (node (.number x)).asNumber = pure x := by
  rw [asNumber_number, ← Json.reread?_eq, h]
  rfl

theorem isFinite_of_reread? {x : Float} (h : Json.reread? x = some x) : x.isFinite = true :=
  Json.isFinite_of_numeralValue? ((Json.reread?_eq x).symm.trans h)

/-! ## The parts of a definition -/

theorem AlternativeSpec.decode_toJson {spec : AlternativeSpec}
    (h : Json.reread? spec.weight = some spec.weight) :
    AlternativeSpec.decode (node spec.toJson) = pure spec := by
  have hrecord : (node spec.toJson).asRecord ["successor", "weight"] = pure _ :=
    asRecord_object (by decide) (List.Sublist.refl _)
  rw [AlternativeSpec.decode, hrecord, pure_bind, requiredField_eq rfl, asText_string, pure_bind,
    requiredField_eq rfl, asNumber_of_reread? h]
  rfl

theorem ContextSpec.decode_toJson (spec : ContextSpec) :
    ContextSpec.decode (node spec.toJson) = pure spec := by
  rw [ContextSpec.toJson]
  generalize hmembers : optionalMember "before" Json.string spec.before ++
    optionalMember "after" Json.string spec.after = members
  have hnames : (members.map Prod.fst).Sublist ["before", "after"] := by
    rw [← hmembers, List.map_append]
    exact (names_optionalMember _ _ _).append (names_optionalMember _ _ _)
  have hbefore : members.lookup "before" = spec.before.map Json.string := by
    simp [← hmembers, List.lookup_append, lookup_optionalMember]
  have hafter : members.lookup "after" = spec.after.map Json.string := by
    simp [← hmembers, List.lookup_append, lookup_optionalMember]
  rw [ContextSpec.decode, asRecord_object (by decide) hnames, pure_bind,
    optionalField_eq hbefore (fun _ _ => trivial) fun text _ => asText_string text, pure_bind,
    optionalField_eq hafter (fun _ _ => trivial) fun text _ => asText_string text, pure_bind]

theorem ProductionSpec.decode_toJson {spec : ProductionSpec}
    (h : ∀ alternatives, spec.stochastic = some alternatives → ∀ alternative ∈ alternatives,
      Json.reread? alternative.weight = some alternative.weight) :
    ProductionSpec.decode (node spec.toJson) = pure spec := by
  rw [ProductionSpec.toJson]
  generalize hmembers : ("key", Json.string spec.key) ::
    (optionalMember "successor" Json.string spec.successor ++
      optionalMember "stochastic" (fun items => .array (items.map AlternativeSpec.toJson))
        spec.stochastic ++
      optionalMember "context" ContextSpec.toJson spec.context) = members
  have hnames : (members.map Prod.fst).Sublist ["key", "successor", "stochastic", "context"] := by
    rw [← hmembers, List.map_cons, List.map_append, List.map_append]
    exact (((names_optionalMember _ _ _).append (names_optionalMember _ _ _)).append
      (names_optionalMember _ _ _)).cons_cons "key"
  have hkey : members.lookup "key" = some (.string spec.key) := by
    rw [← hmembers]
    rfl
  have hsuccessor : members.lookup "successor" = spec.successor.map Json.string := by
    simp [← hmembers, List.lookup_cons, List.lookup_append, lookup_optionalMember]
  have hstochastic : members.lookup "stochastic" =
      spec.stochastic.map fun items => .array (items.map AlternativeSpec.toJson) := by
    simp [← hmembers, List.lookup_cons, List.lookup_append, lookup_optionalMember]
  have hcontext : members.lookup "context" = spec.context.map ContextSpec.toJson := by
    simp [← hmembers, List.lookup_cons, List.lookup_append, lookup_optionalMember]
  have halternatives : ∀ alternatives, spec.stochastic = some alternatives →
      (node (.array (alternatives.map AlternativeSpec.toJson))).asListOf AlternativeSpec.decode =
        pure alternatives :=
    fun alternatives hsome => asListOf_of_forall fun alternative hmem =>
      AlternativeSpec.decode_toJson (h alternatives hsome alternative hmem)
  rw [ProductionSpec.decode, asRecord_object (by decide) hnames, pure_bind,
    requiredField_eq hkey, asText_string, pure_bind,
    optionalField_eq hsuccessor (fun _ _ => trivial) fun text _ => asText_string text, pure_bind,
    optionalField_eq hstochastic (fun _ _ => trivial) halternatives, pure_bind,
    optionalField_eq hcontext (fun _ _ => trivial) fun context _ => context.decode_toJson,
    pure_bind]

/-- A table is decoded to itself. -/
theorem decodeNumbers_object {table : Table Float}
    (h : ∀ entry ∈ table.entries, Json.reread? entry.2 = some entry.2) :
    decodeNumbers (node (.object (table.entries.map fun entry => (entry.1, .number entry.2)))) =
      pure table := by
  have hentries : (fieldNodes (table.entries.map fun entry => (entry.1, .number entry.2))).mapM
      (fun entry => do
        let number ← entry.2.asNumber
        return (entry.1, number)) = pure table.entries := by
    rw [fieldNodes, List.map_map, List.mapM_map]
    refine Decoder.mapM_of_forall fun entry hentry => ?_
    simp only [Function.comp_apply]
    rw [asNumber_of_reread? (h entry hentry), pure_bind]
  rw [decodeNumbers, asEntries_object, pure_bind, hentries, pure_bind,
    Table.ofList_entries table]

/-! ## Whole definitions -/

namespace Definition

/-- The numbers in a definition. -/
def numbers (definition : Definition) : List Float :=
  definition.iterations.toList ++ definition.defines.entries.map Prod.snd ++
    definition.productions.flatMap fun spec =>
      (spec.stochastic.getD []).map AlternativeSpec.weight

/-- What holds of all numbers holds of each of them in its place. -/
theorem forall_numbers {definition : Definition} {p : Float → Prop}
    (h : ∀ x ∈ definition.numbers, p x) :
    (∀ x, definition.iterations = some x → p x) ∧
      (∀ entry ∈ definition.defines.entries, p entry.2) ∧
      ∀ spec ∈ definition.productions, ∀ alternatives, spec.stochastic = some alternatives →
        ∀ alternative ∈ alternatives, p alternative.weight := by
  refine ⟨fun x hx => h x (by simp [numbers, hx]), fun entry hentry => h entry.2 ?_, ?_⟩
  · simp only [numbers, List.mem_append]
    exact .inl (.inr (List.mem_map_of_mem hentry))
  · intro spec hspec alternatives hsome alternative hmem
    refine h _ (List.mem_append_right _ (List.mem_flatMap.2 ⟨spec, hspec, ?_⟩))
    rw [hsome]
    exact List.mem_map_of_mem hmem

theorem decode_toJson {definition : Definition}
    (hnumbers : ∀ x ∈ definition.numbers, Json.reread? x = some x) :
    Definition.decode (node definition.toJson) = pure definition := by
  obtain ⟨hiterations, hdefines, hweights⟩ := forall_numbers hnumbers
  rw [Definition.toJson]
  simp only [ite_eq_optionalMember]
  generalize hmembers : ("alphabet", textArray definition.alphabet) ::
    (optionalMember "ignored_symbols" textArray definition.ignored ++
      ("axiom", Json.string definition.start) ::
        (optionalMember "iterations" Json.number definition.iterations ++ _ ++ _)) = members
  have hnames : (members.map Prod.fst).Sublist fieldNames := by
    rw [← hmembers]
    simp only [List.map_cons, List.map_append]
    exact ((names_optionalMember _ _ _).append ((((names_optionalMember _ _ _).append
      (names_optionalMember _ _ _)).append (names_optionalMember _ _ _)).cons_cons
        "axiom")).cons_cons "alphabet"
  have halphabet : members.lookup "alphabet" = some (textArray definition.alphabet) := by
    rw [← hmembers]
    rfl
  have hignored : members.lookup "ignored_symbols" = definition.ignored.map textArray := by
    simp [← hmembers, List.lookup_cons, List.lookup_append, lookup_optionalMember]
  have hstart : members.lookup "axiom" = some (.string definition.start) := by
    simp [← hmembers, List.lookup_cons, List.lookup_append, lookup_optionalMember]
  have hcount : members.lookup "iterations" = definition.iterations.map Json.number := by
    simp [← hmembers, List.lookup_cons, List.lookup_append, lookup_optionalMember]
  have htable : members.lookup "defines" = if definition.defines.entries.isEmpty then none
      else some
        (.object (definition.defines.entries.map fun entry => (entry.1, .number entry.2))) := by
    simp [← hmembers, List.lookup_cons, List.lookup_append, lookup_optionalMember]
  have hproductions : members.lookup "productions" = if definition.productions.isEmpty then none
      else some (.array (definition.productions.map ProductionSpec.toJson)) := by
    simp [← hmembers, List.lookup_cons, List.lookup_append, lookup_optionalMember]
  have hempty : definition.defines.entries.isEmpty = true →
      (pure Table.empty : Decoder (Table Float)) = pure definition.defines :=
    fun h => congrArg pure (Table.ext (List.isEmpty_iff.1 h).symm)
  have hnil : definition.productions.isEmpty = true →
      (pure [] : Decoder (List ProductionSpec)) = pure definition.productions :=
    fun h => congrArg pure (List.isEmpty_iff.1 h).symm
  rw [Definition.decode, asRecord_object (by decide) hnames, pure_bind,
    requiredField_eq halphabet, asListOf_textArray, pure_bind,
    optionalField_eq hignored (fun _ _ => trivial) fun texts _ => asListOf_textArray texts,
    pure_bind, fieldOr_of_some hstart, asText_string, pure_bind,
    optionalField_eq hcount (fun x hx => isFinite_of_reread? (hiterations x hx))
      (fun x hx => asNumber_of_reread? (hiterations x hx)), pure_bind,
    fieldOr_eq htable hempty fun _ => decodeNumbers_object hdefines, pure_bind,
    fieldOr_eq hproductions hnil fun _ => asListOf_of_forall fun spec hspec =>
      ProductionSpec.decode_toJson (hweights spec hspec), pure_bind]

/-- **Definitions survive JSON.** If all its numbers come back, a definition that is written as JSON is
read as itself. -/
theorem decodes_jsonText (definition : Definition)
    (hnumbers : ∀ x ∈ definition.numbers, Json.reread? x = some x) :
    Definition.ofJson? definition.jsonText = some definition := by
  rw [Definition.ofJson?, Definition.jsonText, Json.read?_compact, Option.bind_some]
  refine Document.decode?_eq ?_
  exact decode_toJson hnumbers

/-- A definition with options that are set to nothing beside options that are not set, and with
characters that are escaped. -/
def sparse : Definition where
  alphabet := ["A", "F", ""]
  ignored := some []
  start := "A\"\\\n\x01é𝔸"
  iterations := some 2.5
  defines := ⟨[("angle", 25.7), ("step", -0.0)], by decide⟩
  productions :=
    [⟨"A", none, some [], some ⟨none, some ""⟩⟩,
      ⟨"F(x)", some "F(x*2)", none, some ⟨none, none⟩⟩,
      ⟨"A", none, some [⟨"F", 1⟩, ⟨"A", 0.1⟩], none⟩]

/-- It comes back as it is. -/
theorem decodes_jsonText_sparse :
    Definition.ofJson? sparse.jsonText = some sparse :=
  decodes_jsonText sparse (by decide +kernel)

end Definition

end GrowthGrammar
