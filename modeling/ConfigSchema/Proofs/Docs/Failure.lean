import ConfigSchema.Proofs.Docs.Flattening
import ConfigSchema.Proofs.Docs.Label
import ConfigSchema.Proofs.Docs.Outline

/-!
# When there is a page

The check of references only asks whether the definitions that are used exist; the page needs each
of them to be an object. Each function of the page reads a part of the document, where all
references name definitions in use (`Traced`), so the only thing that is left to fail is a
definition in use that is no object (`failsOnly_page`). Since the page has a section for each
definition in use, it does fail then (`checkedPage_succeeds_iff`).
-/

namespace ConfigSchema

namespace Schema

open Result

variable {s : Schema}

/-- The failure at a definition in use that is no object. -/
def BadDefinition (s : Schema) (e : SchemaError) : Prop :=
  ∃ name ∈ s.usedDefinitions, ∃ n, s.definition? name = some n ∧ n.object? = none ∧
    e = .malformed (Pointer.child "/$defs" name) .schemaObject

theorem traced_schema {p : Property} (hp : s.Traced p.field) : s.Traced (.object p.schema) := by
  obtain ⟨owner, name, field⟩ := p
  cases field with
  | object => exact hp
  | _ => exact Node.everywhere_object.mpr ⟨fun _ hv => (nomatch hv), fun _ _ hv => (nomatch hv)⟩

theorem used_of_resolveReference {o : Object} (ho : s.Traced (.object o)) {reference : String}
    {r : String × Object} (href : o.reference? = some reference)
    (h : s.resolveReference reference = .ok r) : r.1 ∈ s.usedDefinitions := by
  obtain ⟨name, hname, hused⟩ := ho.target href
  have htarget := (resolveReference_eq_ok_iff.mp h).1
  rw [hname] at htarget
  cases htarget
  exact hused

section

variable (h : s.checkReferences = .ok ())

include h

theorem failsOnly_resolve {name : String} (hname : name ∈ s.usedDefinitions) :
    FailsOnly (s.resolve name) s.BadDefinition := by
  rw [resolve]
  split
  · exact .ok _
  · next n hnot hn =>
    intro e he
    cases he
    refine ⟨name, hname, n, hn, ?_, SchemaError.malformedAt_child ..⟩
    cases n with
    | object o => exact absurd rfl (hnot o)
    | _ => rfl
  · next hnone =>
    have hsome := (Fields.get?_isSome_iff _ _).mpr ((checkReferences_eq_ok_iff.mp h).2 name hname)
    rw [definition?] at hnone
    rw [hnone] at hsome
    cases hsome

theorem failsOnly_resolveReference {o : Object} (ho : s.Traced (.object o)) {reference : String}
    (href : o.reference? = some reference) :
    FailsOnly (s.resolveReference reference) s.BadDefinition := by
  obtain ⟨name, hname, hused⟩ := ho.target href
  rw [resolveReference, target_eq_ok_iff.mpr hname]
  exact (failsOnly_resolve h hused).bind fun definition _ => .ok (name, definition)

theorem failsOnly_label {field : Object} (hfield : s.Traced (.object field)) :
    FailsOnly (field.label s) s.BadDefinition := by
  cases href : field.reference? with
  | some reference =>
    rw [Object.label_of_reference href]
    exact (failsOnly_resolveReference h hfield href).map
  | none =>
    by_cases hoptions : field.typeOptions = []
    · intro e he
      rw [Object.label_of_names href hoptions] at he
      obtain ⟨items, hitems, he⟩ := Option.map_eq_some_iff.mp (Object.namesLabel_eq_error he)
      have := Object.sizeOf_lt_of_object? hitems
      exact failsOnly_label (Node.Everywhere.object? hfield hitems) e he
    · rw [Object.label_of_options href hoptions]
      refine .map (.mapM fun option hoption => ?_)
      have hvariant := (List.mem_filter.mp hoption).1
      have := Object.sizeOf_lt_of_mem_variants hvariant
      exact failsOnly_label (Node.Everywhere.variant hfield hvariant)
termination_by sizeOf field

theorem failsOnly_ownSection {parent required : List String} {p : Property}
    (hp : s.Traced p.field) : FailsOnly (s.ownSection parent required p) s.BadDefinition :=
  (failsOnly_label h (traced_schema hp)).bind fun _ _ => .ok _

theorem failsOnly_fieldSections {closed parent required : List String} {p : Property}
    (hp : s.Traced p.field) :
    FailsOnly (s.fieldSections closed parent required p.name p.field) s.BadDefinition := by
  cases href : p.schema.reference? with
  | none =>
    rw [fieldSections_of_plain href]
    exact (failsOnly_ownSection h hp).map
  | some reference =>
    cases hres : s.resolveReference reference with
    | error e =>
      rw [fieldSections_of_unresolved href hres]
      intro e' he
      cases he
      exact failsOnly_resolveReference h (traced_schema hp) href e hres
    | ok r =>
      obtain ⟨target, definition⟩ := r
      have hdefinition := traced_definition h (resolveReference_eq_ok_iff.mp hres).2
      rw [fieldSections_of_resolved href hres]
      split
      · exact (failsOnly_ownSection h hp).map
      · next properties hproperties =>
        split
        · next hclosed =>
          refine .bind (.mapM fun e he => ?_) fun _ _ => .ok _
          have hfield := (Node.Everywhere.object? hdefinition hproperties).entry he
          -- the fields may be those of any definition, but the one opened here stays open
          have hlt := length_erase_lt hclosed
          exact failsOnly_fieldSections (p := ⟨target, e.1, e.2⟩) hfield
        · exact (failsOnly_ownSection h hp).map
termination_by closed.length

theorem failsOnly_definitionSection {name table : String} (hname : name ∈ s.usedDefinitions) :
    FailsOnly (s.definitionSection name table) s.BadDefinition := by
  refine (failsOnly_resolve h hname).bind fun definition hresolve => ?_
  have hdefinition := traced_definition h (resolve_eq_ok_iff.mp hresolve)
  refine .bind (.mapM fun e he => ?_) fun _ _ => .ok _
  exact failsOnly_fieldSections h (p := ⟨name, e.1, e.2⟩) (hdefinition.property he)

/-! ### The page -/

theorem failsOnly_primarySections {properties : Object} {done : List DefinitionSection}
    (hproperties : ∀ k v, (k, v) ∈ properties → s.Traced v) :
    FailsOnly (s.primarySections done properties) s.BadDefinition := by
  induction properties generalizing done with
  | nil => exact .ok done
  | cons e properties ih =>
    obtain ⟨property, field⟩ := e
    obtain ⟨hfield, hrest⟩ := Fields.forall_mem_cons.mp hproperties
    cases href : field.object?.bind Object.reference? with
    | none =>
      rw [primarySections_cons_of_none href]
      exact ih hrest
    | some reference =>
      obtain ⟨o, ho, hreference⟩ := Option.bind_eq_some_iff.mp href
      rw [Node.object?_eq_some_iff.mp ho] at hfield
      rw [primarySections_cons_of_some href]
      refine (failsOnly_resolveReference h hfield hreference).bind fun r hres => ?_
      split
      · exact ih hrest
      · have hname := used_of_resolveReference hfield hreference hres
        exact (failsOnly_definitionSection h hname).bind fun _ _ => ih hrest

/-- Where all references can be followed, only a definition in use that is no object can keep a
schema from having a page. -/
theorem failsOnly_page (title : String) : FailsOnly (s.page title) s.BadDefinition := by
  have hprimary := @failsOnly_primarySections s h s.root.properties [] fun k v => traced_property h
  refine hprimary.bind fun primary _ => ?_
  refine .bind (.mapM fun name hname => ?_) fun _ _ => .ok _
  exact failsOnly_definitionSection h (used_of_mem_remaining hname)

end

/-- The page has a section for each definition in use, so each of them can be resolved. -/
theorem exists_definition_of_page (h : s.checkReferences = .ok ()) {title : String} {page : Page}
    (hpage : s.page title = .ok page) {name : String} (hname : name ∈ s.usedDefinitions) :
    ∃ o : Object, s.definition? name = some (.object o) := by
  obtain ⟨e, he, rfl⟩ := List.mem_map.mp ((mem_keys_outline_iff h).mpr hname)
  obtain ⟨d, -, hd⟩ := Result.exists_of_mem (forall₂_opens_outline hpage) he
  obtain ⟨definition, hresolve, -⟩ := Result.bind_eq_ok_iff.mp hd
  exact ⟨definition, resolve_eq_ok_iff.mp hresolve⟩

/-- A schema has a page exactly if the check of its references passes and every definition in use is
an object. Where only the check passes, the error names a definition in use that is no object. -/
theorem checkedPage_succeeds_iff (s : Schema) (title : String) :
    ((∃ page, s.checkedPage title = .ok page) ↔ s.checkReferences = .ok () ∧
      ∀ name ∈ s.usedDefinitions, ∃ o : Object, s.definition? name = some (.object o)) ∧
    ∀ e, s.checkReferences = .ok () → s.checkedPage title = .error e → s.BadDefinition e := by
  have hfails (h : s.checkReferences = .ok ()) :
      FailsOnly (s.checkedPage title) s.BadDefinition := by
    rw [checkedPage, h]
    exact failsOnly_page h title
  refine ⟨⟨?_, ?_⟩, fun e h he => hfails h e he⟩
  · rintro ⟨page, hpage⟩
    obtain ⟨hcheck, hpage⟩ := checkedPage_eq_ok_iff.mp hpage
    exact ⟨hcheck, fun name hname => exists_definition_of_page hcheck hpage hname⟩
  · rintro ⟨hcheck, hobjects⟩
    cases hresult : s.checkedPage title with
    | ok page => exact ⟨page, rfl⟩
    | error e =>
      obtain ⟨name, hname, n, hn, hobject, -⟩ := hfails hcheck e hresult
      obtain ⟨o, ho⟩ := hobjects name hname
      rw [ho] at hn
      cases hn
      cases hobject

/-- Two definitions are no objects, and one of them is used, by a reference that is nested. -/
def unusable : Schema := ⟨[
  ("properties", .object [
    ("matrix", .object [("type", .string "array"), ("items", .object [
      ("type", .string "array"), ("items", .object [("$ref", .string "#/$defs/Cell~Type")])])])]),
  ("$defs", .object [("Unused", .bool false), ("Cell~Type", .bool true)])], by decide⟩

theorem checkedPage_succeeds_iff_unusable :
    unusable.checkReferences = .ok () ∧
      unusable.checkedPage "Manifest" = .error (.malformed "/$defs/Cell~0Type" .schemaObject) ∧
      unusable.BadDefinition (.malformed "/$defs/Cell~0Type" .schemaObject) := by
  have hcheck : unusable.checkReferences = .ok () := rfl
  have hpage : unusable.checkedPage "Manifest" =
      .error (.malformed "/$defs/Cell~0Type" .schemaObject) := rfl
  exact ⟨hcheck, hpage, (checkedPage_succeeds_iff unusable "Manifest").2 _ hcheck hpage⟩

end Schema

end ConfigSchema
