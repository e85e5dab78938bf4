import ConfigSchema.Proofs.Docs.Failure
import ConfigSchema.Proofs.Schema.Mentions

/-!
# Definitions that are not used

The page reads the definitions in use, the names of all definitions and the root properties. Schemas
that agree on those (`AgreesInUse`) have the same page: each function of the page reads a part of
the document where all references name definitions in use (`Traced`), and so it resolves them to
the same in both (`page_congr`). A definition that is not used may therefore be replaced by any
value in which the same stands under `$ref`, and the page stays what it is
(`checkedPage_withDefinition`).
-/

namespace ConfigSchema

namespace Schema

/-- `t` has the same root properties as `s`, uses the same definitions and has the same under their
names; its other definitions have the names that they have in `s`. -/
structure AgreesInUse (s t : Schema) : Prop where
  properties : t.root.properties = s.root.properties
  keys : Fields.keys t.definitions = Fields.keys s.definitions
  used : ∀ name, name ∈ t.usedDefinitions ↔ name ∈ s.usedDefinitions
  definition : ∀ name ∈ s.usedDefinitions, t.definition? name = s.definition? name

variable {s t : Schema}

namespace AgreesInUse

variable (hst : s.AgreesInUse t)

include hst

theorem resolve_congr {name : String} (hname : name ∈ s.usedDefinitions) :
    t.resolve name = s.resolve name := by
  rw [resolve, resolve, hst.definition name hname]

theorem resolveReference_congr {o : Object} (ho : s.Traced (.object o)) {reference : String}
    (href : o.reference? = some reference) :
    t.resolveReference reference = s.resolveReference reference := by
  -- only what stands under the name can differ, and the name is that of a definition in use
  obtain ⟨name, hname, hused⟩ := ho.target href
  rw [resolveReference, resolveReference, target_eq_ok_iff.mpr hname]
  exact congrArg (· >>= fun definition => .ok (name, definition)) (hst.resolve_congr hused)

theorem label_congr {field : Object} (hfield : s.Traced (.object field)) :
    field.label t = field.label s := by
  cases href : field.reference? with
  | some reference =>
    rw [Object.label_of_reference href, Object.label_of_reference href,
      hst.resolveReference_congr hfield href]
  | none =>
    by_cases hoptions : field.typeOptions = []
    · rw [Object.label_of_names href hoptions, Object.label_of_names href hoptions]
      refine Object.namesLabel_congr fun _ => Option.map_congr fun items hitems => ?_
      have := Object.sizeOf_lt_of_object? hitems
      exact label_congr (Node.Everywhere.object? hfield hitems)
    · rw [Object.label_of_options href hoptions, Object.label_of_options href hoptions]
      refine congrArg (Except.map Label.options) (Result.mapM_congr fun option hoption => ?_)
      have hvariant := (List.mem_filter.mp hoption).1
      have := Object.sizeOf_lt_of_mem_variants hvariant
      exact label_congr (Node.Everywhere.variant hfield hvariant)
termination_by sizeOf field

theorem ownSection_congr {parent required : List String} {p : Property} (hp : s.Traced p.field) :
    t.ownSection parent required p = s.ownSection parent required p := by
  rw [ownSection, ownSection, fieldSection, fieldSection, hst.label_congr (traced_schema hp)]

theorem fieldSections_congr (h : s.checkReferences = .ok ()) {closed parent required : List String}
    {p : Property} (hp : s.Traced p.field) :
    t.fieldSections closed parent required p.name p.field =
      s.fieldSections closed parent required p.name p.field := by
  have hown := @ownSection_congr s t hst parent required p hp
  cases href : p.schema.reference? with
  | none => rw [fieldSections_of_plain href, fieldSections_of_plain href, hown]
  | some reference =>
    have hresolve := hst.resolveReference_congr (traced_schema hp) href
    cases hres : s.resolveReference reference with
    | error e =>
      rw [fieldSections_of_unresolved href hres,
        fieldSections_of_unresolved href (hresolve.trans hres)]
    | ok r =>
      obtain ⟨target, definition⟩ := r
      have hdefinition := traced_definition h (resolveReference_eq_ok_iff.mp hres).2
      rw [fieldSections_of_resolved href hres, fieldSections_of_resolved href (hresolve.trans hres),
        hown]
      split
      · rfl
      · next properties hproperties =>
        split
        · next hclosed =>
          refine congrArg (· >>= fun fs => .ok fs.flatten) (Result.mapM_congr fun e he => ?_)
          have hfield := (Node.Everywhere.object? hdefinition hproperties).entry he
          have hlt := length_erase_lt hclosed
          exact fieldSections_congr h (p := ⟨target, e.1, e.2⟩) hfield
        · rfl
termination_by closed.length

theorem definitionSection_congr (h : s.checkReferences = .ok ()) {name table : String}
    (hname : name ∈ s.usedDefinitions) :
    t.definitionSection name table = s.definitionSection name table := by
  rw [definitionSection, definitionSection, hst.resolve_congr hname, hst.keys]
  cases hresolve : s.resolve name with
  | error e => rw [Result.error_bind, Result.error_bind]
  | ok definition =>
    have hdefinition := traced_definition h (resolve_eq_ok_iff.mp hresolve)
    have hfields (closed : List String) :
        definition.properties.mapM (fun e =>
          t.fieldSections closed [table] definition.required e.1 e.2) =
        definition.properties.mapM fun e =>
          s.fieldSections closed [table] definition.required e.1 e.2 :=
      Result.mapM_congr fun e he =>
        hst.fieldSections_congr h (p := ⟨name, e.1, e.2⟩) (hdefinition.property he)
    simp only [Result.ok_bind, hfields]

theorem primarySections_congr (h : s.checkReferences = .ok ()) {properties : Object}
    {done : List DefinitionSection} (hproperties : ∀ k v, (k, v) ∈ properties → s.Traced v) :
    t.primarySections done properties = s.primarySections done properties := by
  induction properties generalizing done with
  | nil => rfl
  | cons e properties ih =>
    obtain ⟨property, field⟩ := e
    obtain ⟨hfield, hrest⟩ := Fields.forall_mem_cons.mp hproperties
    cases href : field.object?.bind Object.reference? with
    | none => rw [primarySections_cons_of_none href, primarySections_cons_of_none href, ih hrest]
    | some reference =>
      obtain ⟨o, ho, hreference⟩ := Option.bind_eq_some_iff.mp href
      rw [Node.object?_eq_some_iff.mp ho] at hfield
      rw [primarySections_cons_of_some href, primarySections_cons_of_some href,
        hst.resolveReference_congr hfield hreference]
      cases hres : s.resolveReference reference with
      | error e => rw [Result.error_bind, Result.error_bind]
      | ok r =>
        have hname := used_of_resolveReference hfield hreference hres
        simp only [Result.ok_bind, ih hrest, hst.definitionSection_congr h hname]

theorem remaining_congr (done : List DefinitionSection) : t.remaining done = s.remaining done := by
  rw [remaining, remaining, hst.keys]
  refine List.filter_congr fun name _ => congrArg (· && _) ?_
  rw [Bool.eq_iff_iff, List.contains_iff_mem, List.contains_iff_mem]
  exact hst.used name

/-- Schemas that agree where they are used have the same page, or the same error instead of it. -/
theorem page_congr (h : s.checkReferences = .ok ()) (title : String) :
    t.page title = s.page title := by
  have hprimary :
      t.primarySections [] t.root.properties = s.primarySections [] s.root.properties := by
    rw [hst.properties]
    exact hst.primarySections_congr h fun k v => traced_property h
  rw [page, page, hprimary]
  refine bind_congr fun primary => ?_
  rw [hst.remaining_congr]
  refine congrArg (· >>= _) (Result.mapM_congr fun name hname => ?_)
  exact hst.definitionSection_congr h (used_of_mem_remaining hname)

end AgreesInUse

/-! ### A definition that is not used -/

theorem agreesInUse_withDefinition {name : String} {v n : Node} {hn : n.Distinct}
    (hname : name ≠ "$ref") (hv : s.definition? name = some v) (hunused : name ∉ s.usedDefinitions)
    (hmentions : ∀ r, n.Mentions r ↔ v.Mentions r) :
    s.AgreesInUse (s.withDefinition name n hn) where
  properties := properties_withDefinition s name hn
  keys := keys_definitions_withDefinition hv
  used := mem_usedDefinitions_withDefinition hname hv hmentions
  definition _ hother := definition?_withDefinition_of_ne fun heq => hunused (heq ▸ hother)

/-- A definition that is not used may be replaced by any value in which the same stands under
`$ref`: the page of the schema stays what it is. -/
theorem checkedPage_withDefinition {title name : String} {page : Page} {v n : Node}
    (h : s.checkedPage title = .ok page) (hname : name ≠ "$ref")
    (hv : s.definition? name = some v) (hunused : name ∉ s.usedDefinitions) (hn : n.Distinct)
    (hmentions : ∀ r, n.Mentions r ↔ v.Mentions r) :
    (s.withDefinition name n hn).checkedPage title = .ok page := by
  obtain ⟨hcheck, hpage⟩ := checkedPage_eq_ok_iff.mp h
  refine checkedPage_eq_ok_iff.mpr ⟨?_, ?_⟩
  · exact (checkReferences_withDefinition hname hv hmentions).mpr hcheck
  · rw [(agreesInUse_withDefinition hname hv hunused hmentions).page_congr hcheck]
    exact hpage

/-- A tree of which one definition is not used, but refers to one that is used there only. -/
def grove : Schema := ⟨[
  ("properties", .object [("tree", .object [("$ref", .string "#/$defs/Tree")])]),
  ("$defs", .object [
    ("Orphan", .object [
      ("title", .string "Gone"), ("items", .object [("$ref", .string "#/$defs/Leaf")])]),
    ("Tree", .object [("properties", .object [
      ("left", .object [("$ref", .string "#/$defs/Tree")])])]),
    ("Leaf", .object [("title", .string "Leaf")])])], by decide⟩

def grovePage : Page where
  title := "Manifest"
  sections := [
    ⟨"Tree", "Tree", none, [⟨["tree"], "left", .link "Tree", false, none, none, []⟩]⟩,
    ⟨"Leaf", "Leaf", none, []⟩]

/-- No schema at all, but `Leaf` is referred to twice. -/
def otherOrphan : Node := .array [
  .object [("$ref", .string "#/$defs/Leaf")],
  .array [.string "Leaf", .object [("$ref", .string "#/$defs/Leaf")]]]

theorem checkedPage_withDefinition_grove :
    grove.checkedPage "Manifest" = .ok grovePage ∧
      (grove.withDefinition "Orphan" otherOrphan (by decide)).checkedPage "Manifest" =
        .ok grovePage := by
  have h : grove.checkedPage "Manifest" = .ok grovePage := by
    refine checkedPage_eq_ok_iff.mpr ⟨rfl, ?_⟩
    with_unfolding_all rfl
  have hother : ∀ r, otherOrphan.Mentions r ↔ Node.Mentions (.object
      [("title", .string "Gone"), ("items", .object [("$ref", .string "#/$defs/Leaf")])]) r := by
    intro r
    have htext (text : String) : ¬ (Node.string text).Mentions r := Node.not_mentions_scalar rfl rfl
    simp [otherOrphan, htext, Node.mentions_array_iff, Node.mentions_object_iff, Fields.get?_cons,
      or_and_right, exists_or]
  exact ⟨h, checkedPage_withDefinition h (by decide) rfl (by decide) (by decide) hother⟩

/-- An entry of the definitions that is called `$ref`. -/
def namedReference : Schema := ⟨[
  ("$defs", .object [
    ("A", .object []), ("B", .object []), ("$ref", .string "#/$defs/A")])], by decide⟩

/-- The value of a definition that is called `$ref` decides which definition has a section. -/
theorem not_checkedPage_withDefinition :
    ¬ ∀ (s : Schema) (title name : String) (page : Page) (v n : Node) (hn : n.Distinct),
      s.checkedPage title = .ok page → s.definition? name = some v → name ∉ s.usedDefinitions →
      (∀ r, n.Mentions r ↔ v.Mentions r) →
      (s.withDefinition name n hn).checkedPage title = .ok page := by
  intro h
  have hpage : namedReference.checkedPage "T" = .ok ⟨"T", [⟨"A", "A", none, []⟩]⟩ := by
    refine checkedPage_eq_ok_iff.mpr ⟨rfl, ?_⟩
    with_unfolding_all rfl
  have hother : (namedReference.withDefinition "$ref" (.string "#/$defs/B")
      (.string _)).checkedPage "T" = .ok ⟨"T", [⟨"B", "B", none, []⟩]⟩ := by
    refine checkedPage_eq_ok_iff.mpr ⟨rfl, ?_⟩
    with_unfolding_all rfl
  have hmentions (text : String) (r : Node) : ¬ (Node.string text).Mentions r :=
    Node.not_mentions_scalar rfl rfl
  have hsame := h namedReference "T" "$ref" _ _ (.string "#/$defs/B") (.string _) hpage rfl
    (by decide) fun r => iff_of_false (hmentions _ r) (hmentions _ r)
  rw [hother] at hsame
  simp at hsame

end Schema

end ConfigSchema
