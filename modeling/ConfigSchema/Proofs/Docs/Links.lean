import ConfigSchema.Proofs.Docs.Failure

/-!
# Links

The label of a field links to the definitions that the field's type is made of (`Label.LinksTo`),
and its text shows the links (`LinksTo.isInfix_text`). Each of the definitions is in use, so the
page has a section for it. The link is made from the name of the definition and the heading of the
section from its title, if it has one, so the link has a target exactly if the title is the name, up
to capitals (`linksTo_checkedPage`).
-/

namespace ConfigSchema

namespace Label

/-- The label has a link to the definition. -/
inductive LinksTo : Label → String → Prop
  | link (name : String) : LinksTo (.link name) name
  | option {labels : List Label} {l : Label} {name : String} (hl : l ∈ labels)
      (h : LinksTo l name) : LinksTo (.options labels) name
  | item {item : Label} {name : String} (h : LinksTo item name) : LinksTo (.list item) name

theorem text_options (labels : List Label) :
    (options labels).text = " | ".intercalate (labels.map text) := by
  have htexts : texts labels = labels.map text := by
    induction labels with
    | nil => rfl
    | cons l labels ih => rw [texts, ih, List.map_cons]
  rw [text, htexts]

theorem text_list (item : Label) : (list item).text = "List[" ++ item.text ++ "]" := by rw [text]

theorem mem_intersperse_of_mem {α : Type} {sep x : α} {xs : List α} (h : x ∈ xs) :
    x ∈ xs.intersperse sep := by
  induction xs with
  | nil => cases h
  | cons y ys ih =>
    cases ys with
    | nil => exact h
    | cons z zs =>
      rw [List.intersperse_cons_cons]
      rcases List.mem_cons.mp h with rfl | h
      · exact List.mem_cons_self ..
      · exact List.mem_cons_of_mem _ (List.mem_cons_of_mem _ (ih h))

/-- The text of a label shows its links. -/
theorem LinksTo.isInfix_text {l : Label} {name : String} (h : l.LinksTo name) :
    (text (.link name)).toList <:+: l.text.toList := by
  induction h with
  | link name => exact List.infix_rfl
  | @option labels l name hl _ ih =>
    have hmem : l.text.toList ∈ (labels.map text).map String.toList := by
      rw [List.map_map]
      exact List.mem_map_of_mem hl
    rw [text_options, String.toList_intercalate]
    exact ih.trans (List.infix_of_mem_flatten (mem_intersperse_of_mem hmem))
  | item _ ih =>
    rw [text_list, String.toList_append, String.toList_append]
    exact ih.trans (List.infix_append ..)

end Label

/-- What a link to the section is called. -/
def DefinitionSection.anchor (d : DefinitionSection) : String := lower d.heading

namespace Schema

variable {s : Schema}

/-! ### A link leads to a definition in use -/

theorem used_of_linksTo_label {field : Object} {l : Label} {name : String}
    (hfield : s.Traced (.object field)) (h : field.label s = .ok l) (hl : l.LinksTo name) :
    name ∈ s.usedDefinitions := by
  cases href : field.reference? with
  | some reference =>
    rw [Object.label_of_reference href] at h
    obtain ⟨r, hres, rfl⟩ := Result.map_eq_ok_iff.mp h
    cases hl
    exact used_of_resolveReference hfield href hres
  | none =>
    by_cases hoptions : field.typeOptions = []
    · rw [Object.label_of_names href hoptions] at h
      obtain rfl | rfl | ⟨item, rfl, hitem⟩ := Object.namesLabel_eq_ok h
      · cases hl
      · cases hl
      · cases hl with
        | item hl =>
          obtain hitem | rfl := hitem
          · obtain ⟨items, hitems, hitem⟩ := Option.map_eq_some_iff.mp hitem
            have := Object.sizeOf_lt_of_object? hitems
            exact used_of_linksTo_label (Node.Everywhere.object? hfield hitems) hitem hl
          · cases hl
    · rw [Object.label_of_options href hoptions] at h
      obtain ⟨labels, hlabels, rfl⟩ := Result.map_eq_ok_iff.mp h
      cases hl with
      | option hmem hl =>
        obtain ⟨option, hoption, hlabel⟩ := Result.mem_of_mapM hlabels hmem
        have hvariant := (List.mem_filter.mp hoption).1
        have := Object.sizeOf_lt_of_mem_variants hvariant
        exact used_of_linksTo_label (Node.Everywhere.variant hfield hvariant) hlabel hl
termination_by sizeOf field

theorem traced_of_declares (h : s.checkReferences = .ok ()) {p : Property} (hp : s.Declares p) :
    s.Traced p.field := by
  obtain ⟨properties, hproperties, hget⟩ := hp
  obtain ⟨definition, hdefinition, hps⟩ := propertiesOf?_eq_some hproperties
  have hdefinition := traced_definition h hdefinition
  exact (Node.Everywhere.object? hdefinition hps).entry (Fields.mem_of_get? hget)

theorem used_of_linksTo_field {owner table name : String} {d : DefinitionSection}
    {f : FieldSection} (h : s.checkReferences = .ok ())
    (hd : s.definitionSection owner table = .ok d) (hf : f ∈ d.fields) (hl : f.label.LinksTo name) :
    name ∈ s.usedDefinitions := by
  have hdocuments := (forall₂_documents_fieldChains hd).flip
  obtain ⟨chain, hchain, hdoc⟩ := Result.exists_of_mem hdocuments hf
  obtain ⟨last, hlast, hfield⟩ := hdoc.content
  have hdeclared := (mem_fieldChains.mp hchain).declared last (List.mem_of_getLast? hlast)
  obtain ⟨l, hlabel, hfield⟩ := Result.bind_eq_ok_iff.mp hfield
  have heq : l = f.label := congrArg FieldSection.label (Except.ok.inj hfield)
  rw [heq] at hlabel
  exact used_of_linksTo_label (traced_schema (traced_of_declares h hdeclared)) hlabel hl

/-! ### The section of a definition in use -/

theorem heading_definitionSection {name table : String} {d : DefinitionSection}
    (h : s.definitionSection name table = .ok d) : ∃ definition : Object,
      s.definition? name = some (.object definition) ∧ d.heading = definition.title?.getD name := by
  obtain ⟨definition, hresolve, h⟩ := Result.bind_eq_ok_iff.mp h
  obtain ⟨fields, -, h⟩ := Result.bind_eq_ok_iff.mp h
  cases h
  exact ⟨definition, resolve_eq_ok_iff.mp hresolve, rfl⟩

/-- Where no definition has two sections, a section is given by the definition that it is about. -/
theorem eq_of_name_eq {ds : List DefinitionSection}
    (hnodup : (ds.map DefinitionSection.name).Nodup) {d e : DefinitionSection} (hd : d ∈ ds)
    (he : e ∈ ds) (hname : d.name = e.name) : d = e :=
  List.inj_on_of_nodup_map hnodup hd he hname

/-- Each link on a page is to a definition that has exactly one section. The link leads to the
heading of that section exactly if the definition has no title other than its name, capitals
aside. -/
theorem linksTo_checkedPage {title name : String} {page : Page} {d : DefinitionSection}
    {f : FieldSection} (h : s.checkedPage title = .ok page) (hd : d ∈ page.sections)
    (hf : f ∈ d.fields) (hl : f.label.LinksTo name) :
    ∃ (definition : Object) (target : DefinitionSection),
      s.definition? name = some (.object definition) ∧
      (∀ e, e ∈ page.sections ∧ e.name = name ↔ e = target) ∧
      target.heading = definition.title?.getD name ∧
      (target.anchor = Label.anchor name ↔
        ∀ title, definition.title? = some title → lower title = lower name) := by
  obtain ⟨hcheck, hpage⟩ := checkedPage_eq_ok_iff.mp h
  have hopens := forall₂_opens_outline hpage
  obtain ⟨owner, -, howner⟩ := Result.exists_of_mem hopens.flip hd
  have hused := used_of_linksTo_field hcheck howner hf hl
  obtain ⟨entry, hentry, rfl⟩ := List.mem_map.mp ((mem_keys_outline_iff hcheck).mpr hused)
  obtain ⟨target, htarget, hopen⟩ := Result.exists_of_mem hopens hentry
  obtain ⟨definition, hdefinition, hheading⟩ := heading_definitionSection hopen
  have hnodup : (page.sections.map DefinitionSection.name).Nodup := by
    rw [names_of_opens hopens]
    exact nodup_keys_outline
  refine ⟨definition, target, hdefinition, fun e => ⟨fun ⟨he, hname⟩ => ?_, ?_⟩, hheading, ?_⟩
  · exact eq_of_name_eq hnodup he htarget (hname.trans hopen.name_eq.symm)
  · rintro rfl
    exact ⟨htarget, hopen.name_eq⟩
  · rw [DefinitionSection.anchor, hheading, Label.anchor]
    cases definition.title? <;> simp

/-- A list of values of a type whose title has other capitals than its name. -/
def channels : Schema := ⟨[
  ("properties", .object [("workspace", .object [("$ref", .string "#/$defs/Workspace")])]),
  ("$defs", .object [
    ("Workspace", .object [("properties", .object [
      ("priorities", .object [("type", .string "array"), ("items", .object [
        ("anyOf", .array [
          .object [("$ref", .string "#/$defs/Priority")],
          .object [("type", .string "null")]])])])])]),
    ("Priority", .object [("title", .string "PRIORITY"), ("enum", .array [.string "strict"])])])],
  by decide⟩

def channelsPage : Page where
  title := "Manifest"
  sections := [
    ⟨"Workspace", "Workspace", none,
      [⟨["workspace"], "priorities", .list (.options [.link "Priority"]), false, none, none, []⟩]⟩,
    ⟨"Priority", "PRIORITY", none, []⟩]

theorem linksTo_checkedPage_channels :
    channels.checkedPage "Manifest" = .ok channelsPage ∧
      ∃ (definition : Object) (target : DefinitionSection),
        channels.definition? "Priority" = some (.object definition) ∧
        (∀ e, e ∈ channelsPage.sections ∧ e.name = "Priority" ↔ e = target) ∧
        target.heading = definition.title?.getD "Priority" ∧
        (target.anchor = Label.anchor "Priority" ↔
          ∀ title, definition.title? = some title → lower title = lower "Priority") := by
  have h : channels.checkedPage "Manifest" = .ok channelsPage := by
    refine checkedPage_eq_ok_iff.mpr ⟨rfl, ?_⟩
    with_unfolding_all rfl
  have hl : (Label.list (.options [.link "Priority"])).LinksTo "Priority" :=
    .item (.option (List.mem_singleton_self _) (.link "Priority"))
  have hall := linksTo_checkedPage h (List.mem_cons_self ..) (List.mem_singleton_self _) hl
  exact ⟨h, hall⟩

/-- The title of a definition is not its name. -/
def retitled : Schema := ⟨[
  ("properties", .object [("w", .object [("$ref", .string "#/$defs/W")])]),
  ("$defs", .object [
    ("W", .object [("properties", .object [
      ("p", .object [("$ref", .string "#/$defs/ChannelPriority")])])]),
    ("ChannelPriority", .object [
      ("title", .string "Priority"), ("enum", .array [.string "strict"])])])], by decide⟩

/-- A link may have no target at all on its page. -/
theorem not_linksTo_checkedPage :
    ¬ ∀ (s : Schema) (title name : String) (page : Page) (d : DefinitionSection) (f : FieldSection),
      s.checkedPage title = .ok page → d ∈ page.sections → f ∈ d.fields →
      f.label.LinksTo name → ∃ target ∈ page.sections, target.anchor = Label.anchor name := by
  intro h
  have hpage : retitled.checkedPage "T" = .ok ⟨"T", [
      ⟨"W", "W", none, [⟨["w"], "p", .link "ChannelPriority", false, none, none, []⟩]⟩,
      ⟨"ChannelPriority", "Priority", none, []⟩]⟩ := by
    refine checkedPage_eq_ok_iff.mpr ⟨rfl, ?_⟩
    with_unfolding_all rfl
  obtain ⟨target, htarget, hanchor⟩ := h retitled "T" "ChannelPriority" _ _ _ hpage
    (List.mem_cons_self ..) (List.mem_singleton_self _) (.link "ChannelPriority")
  rcases List.mem_cons.mp htarget with rfl | htarget
  · exact absurd hanchor (by decide)
  · cases List.mem_singleton.mp htarget
    exact absurd hanchor (by decide)

end Schema

end ConfigSchema
