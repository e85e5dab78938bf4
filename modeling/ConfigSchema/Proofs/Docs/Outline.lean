import ConfigSchema.Docs.Page
import ConfigSchema.Proofs.Docs.Chain
import ConfigSchema.Proofs.Schema.References

/-!
# The outline of a page

Two passes open the sections of a page: one over the root properties that are references, one over
the declared definitions, and the second leaves out what the first has opened. The definitions that
they open are those of the `outline`, in its order (`forall₂_opens_outline`). It lists no definition
twice, and where all references can be followed it lists the definitions in use, no more and no
fewer (`mem_keys_outline_iff`).
-/

namespace ConfigSchema

namespace Fields

variable {α : Type} {fs : Fields α} {e : String × α} {names : List String}

/-- The entries under other keys. -/
def without (fs : Fields α) (names : List String) : Fields α := fs.filter fun e => e.1 ∉ names

/-- The first entry under each key. -/
def firsts : Fields α → Fields α
  | [] => []
  | e :: fs => e :: without (firsts fs) [e.1]

theorem keys_without : keys (fs.without names) = (keys fs).filter fun key => key ∉ names := by
  simp only [keys, without, List.filter_map, Function.comp_def]

theorem without_nil : fs.without [] = fs := by simp [without]

theorem mem_keys_firsts {key : String} : key ∈ keys (firsts fs) ↔ key ∈ keys fs := by
  induction fs with
  | nil => rfl
  | cons e fs ih =>
    show key ∈ e.1 :: keys (without (firsts fs) [e.1]) ↔ key ∈ e.1 :: keys fs
    rw [keys_without, List.mem_cons, List.mem_cons, List.mem_filter, ih]
    by_cases h : key = e.1 <;> simp [h]

theorem distinct_firsts : ∀ fs : Fields α, Distinct (firsts fs)
  | [] => .nil
  | e :: fs => by
    show (e.1 :: keys (without (firsts fs) [e.1])).Nodup
    rw [keys_without, List.nodup_cons]
    exact ⟨by simp, (distinct_firsts fs).filter _⟩

theorem without_firsts_cons_of_mem (h : e.1 ∈ names) :
    without (firsts (e :: fs)) names = without (firsts fs) names := by
  rw [firsts, without, List.filter_cons, if_neg (by simpa using h), without, List.filter_filter]
  refine List.filter_congr fun e' _ => ?_
  by_cases he : e'.1 = e.1 <;> simp [he, h]

theorem without_firsts_cons_of_not_mem (h : e.1 ∉ names) :
    without (firsts (e :: fs)) names = e :: without (firsts fs) (names ++ [e.1]) := by
  rw [firsts, without, List.filter_cons, if_pos (by simpa using h), without, List.filter_filter]
  congr 1
  exact List.filter_congr fun e' _ => by simp

end Fields

namespace Schema

variable {s : Schema} {property : String} {field : Node} {rest : Object}
  {done sections : List DefinitionSection}

/-- The definitions that properties themselves refer to, each with the name of the property in the
manifest. -/
def directReferences (properties : Object) : Fields String :=
  properties.filterMap fun e =>
    ((e.2.object?.bind Object.reference?).bind targetName?).map (·, Naming.external e.1 e.2)

/-- The definitions that root properties refer to, each with the name of the first of them. -/
def primaries (s : Schema) : Fields String := Fields.firsts (directReferences s.root.properties)

/-- The definitions with a section, in order, each with the table that its fields stand in. -/
def outline (s : Schema) : Fields String :=
  s.primaries ++
    ((Fields.keys s.definitions).filter fun name =>
      name ∈ s.usedDefinitions ∧ name ∉ Fields.keys s.primaries).map fun name =>
        (name, Naming.kebab name)

/-- `d` is the section of a definition and its table. -/
def Opens (s : Schema) (e : String × String) (d : DefinitionSection) : Prop :=
  s.definitionSection e.1 e.2 = .ok d

theorem Opens.name_eq {e : String × String} {d : DefinitionSection} (h : s.Opens e d) :
    d.name = e.1 := by
  obtain ⟨definition, -, h⟩ := Result.bind_eq_ok_iff.mp h
  obtain ⟨fields, -, h⟩ := Result.bind_eq_ok_iff.mp h
  cases h
  rfl

theorem names_of_opens {entries : Fields String} {ds : List DefinitionSection}
    (h : List.Forall₂ s.Opens entries ds) :
    ds.map DefinitionSection.name = Fields.keys entries := by
  induction h with
  | nil => rfl
  | cons hd _ ih => rw [List.map_cons, ih, hd.name_eq]; rfl

/-! ### The first pass -/

theorem any_name_iff {name : String} :
    done.any (·.name == name) = true ↔ name ∈ done.map DefinitionSection.name := by
  rw [List.any_eq_true, List.mem_map]
  exact exists_congr fun d => and_congr_right fun _ => beq_iff_eq

theorem primarySections_cons_of_none (h : field.object?.bind Object.reference? = none) :
    s.primarySections done ((property, field) :: rest) = s.primarySections done rest := by
  rw [primarySections, h]

theorem primarySections_cons_of_some {reference : String}
    (h : field.object?.bind Object.reference? = some reference) :
    s.primarySections done ((property, field) :: rest) =
      s.resolveReference reference >>= fun r =>
        if r.1 ∈ done.map DefinitionSection.name then s.primarySections done rest
        else s.definitionSection r.1 (Naming.external property field) >>= fun d =>
          s.primarySections (done ++ [d]) rest := by
  rw [primarySections, h]
  refine bind_congr fun r => ?_
  by_cases hdone : r.1 ∈ done.map DefinitionSection.name
  · rw [if_pos hdone]
    exact if_pos (any_name_iff.mpr hdone)
  · rw [if_neg hdone]
    exact if_neg (mt any_name_iff.mp hdone)

theorem directReferences_cons_of_none (h : field.object?.bind Object.reference? = none) :
    directReferences ((property, field) :: rest) = directReferences rest := by
  simp [directReferences, h]

theorem directReferences_cons_of_some {reference name : String}
    (h : field.object?.bind Object.reference? = some reference)
    (hname : targetName? reference = some name) : directReferences ((property, field) :: rest) =
      (name, Naming.external property field) :: directReferences rest := by
  simp [directReferences, h, hname]

/-- The sections that are added to those in `done` are the sections for the first references to
definitions that have none in `done`. -/
theorem primarySections_eq {properties : Object}
    (h : s.primarySections done properties = .ok sections) :
    ∃ added, sections = done ++ added ∧
      List.Forall₂ s.Opens ((Fields.firsts (directReferences properties)).without
        (done.map DefinitionSection.name)) added := by
  induction properties generalizing done with
  | nil =>
    cases h
    exact ⟨[], (List.append_nil _).symm, .nil⟩
  | cons e properties ih =>
    obtain ⟨property, field⟩ := e
    cases href : field.object?.bind Object.reference? with
    | none =>
      rw [primarySections_cons_of_none href] at h
      rw [directReferences_cons_of_none href]
      exact ih h
    | some reference =>
      rw [primarySections_cons_of_some href] at h
      obtain ⟨⟨name, definition⟩, hres, h⟩ := Result.bind_eq_ok_iff.mp h
      rw [directReferences_cons_of_some href (resolveReference_eq_ok_iff.mp hres).1]
      by_cases hdone : name ∈ done.map DefinitionSection.name
      · rw [if_pos hdone] at h
        rw [Fields.without_firsts_cons_of_mem hdone]
        exact ih h
      · rw [if_neg hdone] at h
        obtain ⟨d, hd, h⟩ := Result.bind_eq_ok_iff.mp h
        have hd : s.Opens (name, Naming.external property field) d := hd
        obtain ⟨added, rfl, hadded⟩ := ih h
        rw [List.map_append, List.map_singleton, hd.name_eq] at hadded
        rw [Fields.without_firsts_cons_of_not_mem hdone]
        exact ⟨d :: added, List.append_assoc .., .cons hd hadded⟩

/-! ### The whole page -/

theorem used_of_mem_remaining {name : String} (h : name ∈ s.remaining done) :
    name ∈ s.usedDefinitions := by
  have hused := (List.mem_filter.mp h).2
  rw [Bool.and_eq_true, List.contains_iff_mem] at hused
  exact hused.1

/-- The sections of a page are those of the outline. -/
theorem forall₂_opens_outline {title : String} {page : Page} (h : s.page title = .ok page) :
    List.Forall₂ s.Opens s.outline page.sections := by
  obtain ⟨primary, hprimary, h⟩ := Result.bind_eq_ok_iff.mp h
  obtain ⟨appendix, happendix, h⟩ := Result.bind_eq_ok_iff.mp h
  cases h
  obtain ⟨_, rfl, hopens⟩ := primarySections_eq hprimary
  rw [List.map_nil, Fields.without_nil] at hopens
  have hremaining : s.remaining ([] ++ primary) = s.definitions.keys.filter fun name =>
      name ∈ s.usedDefinitions ∧ name ∉ Fields.keys s.primaries := by
    rw [primaries, ← names_of_opens hopens]
    refine List.filter_congr fun name _ => ?_
    rw [Bool.eq_iff_iff]
    simp only [List.nil_append, Bool.and_eq_true, List.contains_iff_mem, Bool.not_eq_true',
      decide_eq_true_eq, ← Bool.not_eq_true, any_name_iff]
  refine List.rel_append hopens (List.forall₂_map_left_iff.mpr ?_)
  rw [← hremaining]
  exact Result.mapM_eq_ok_iff.mp happendix

theorem keys_outline : Fields.keys s.outline = Fields.keys s.primaries ++
    (Fields.keys s.definitions).filter fun name =>
      name ∈ s.usedDefinitions ∧ name ∉ Fields.keys s.primaries := by
  simp only [outline, Fields.keys, List.map_append, List.map_map, Function.comp_def, List.map_id']

theorem nodup_keys_outline : (Fields.keys s.outline).Nodup := by
  have hdefinitions : (Fields.keys s.definitions).Nodup := s.distinct_definitions.keys
  rw [keys_outline, List.nodup_append]
  refine ⟨Fields.distinct_firsts _, hdefinitions.filter _, fun a ha b hb hab => ?_⟩
  have hb := of_decide_eq_true (List.mem_filter.mp hb).2
  rw [← hab] at hb
  exact hb.2 ha

theorem mem_usedDefinitions_of_mem_primaries (h : s.checkReferences = .ok ()) {name : String}
    (hname : name ∈ Fields.keys s.primaries) : name ∈ s.usedDefinitions := by
  obtain ⟨_, he, rfl⟩ := List.mem_map.mp (Fields.mem_keys_firsts.mp hname)
  obtain ⟨⟨property, field⟩, hfield, he⟩ := List.mem_filterMap.mp he
  obtain ⟨name, hbind, rfl⟩ := Option.map_eq_some_iff.mp he
  obtain ⟨reference, hbind, htarget⟩ := Option.bind_eq_some_iff.mp hbind
  obtain ⟨o, ho, href⟩ := Option.bind_eq_some_iff.mp hbind
  have ho : field = .object o := Node.object?_eq_some_iff.mp ho
  rw [ho] at hfield
  obtain ⟨name', hname', hused⟩ := (traced_property h hfield).target href
  cases htarget.symm.trans hname'
  exact hused

/-- Where all references can be followed, the page has a section for each definition in use. -/
theorem mem_keys_outline_iff (h : s.checkReferences = .ok ()) {name : String} :
    name ∈ Fields.keys s.outline ↔ name ∈ s.usedDefinitions := by
  rw [keys_outline, List.mem_append, List.mem_filter, decide_eq_true_eq]
  constructor
  · rintro (hprimary | ⟨-, hused, -⟩)
    · exact mem_usedDefinitions_of_mem_primaries h hprimary
    · exact hused
  · intro hused
    by_cases hprimary : name ∈ Fields.keys s.primaries
    · exact .inl hprimary
    · exact .inr ⟨(checkReferences_eq_ok_iff.mp h).2 name hused, hused, hprimary⟩

theorem checkedPage_eq_ok_iff {title : String} {page : Page} :
    s.checkedPage title = .ok page ↔ s.checkReferences = .ok () ∧ s.page title = .ok page :=
  Result.andThen_eq_ok_iff

/-- A page has one section for each definition in use, in the order of the outline. -/
theorem sections_checkedPage {title : String} {page : Page} (h : s.checkedPage title = .ok page) :
    List.Forall₂ s.Opens s.outline page.sections ∧
      page.sections.map DefinitionSection.name = Fields.keys s.outline ∧
      (page.sections.map DefinitionSection.name).Nodup ∧
      ∀ name, name ∈ page.sections.map DefinitionSection.name ↔ name ∈ s.usedDefinitions := by
  obtain ⟨hcheck, hpage⟩ := checkedPage_eq_ok_iff.mp h
  have hopens := forall₂_opens_outline hpage
  rw [names_of_opens hopens]
  exact ⟨hopens, rfl, nodup_keys_outline, fun name => mem_keys_outline_iff hcheck⟩

/-- Two properties share a definition; another definition is used in a union only, and one is not
used at all. -/
def workspace : Schema := ⟨[
  ("properties", .object [
    ("default_task", .object [("$ref", .string "#/$defs/Task")]),
    ("platform", .object [("anyOf", .array [
      .object [("$ref", .string "#/$defs/TargetPlatform")], .object [("type", .string "null")]])]),
    ("other_task", .object [("$ref", .string "#/$defs/Task")])]),
  ("$defs", .object [
    ("Unused", .object [("type", .string "string")]),
    ("TargetPlatform", .object [("enum", .array [.string "linux-64"])]),
    ("Task", .object [("properties", .object [("cmd", .object [("type", .string "string")])])])])],
  by decide⟩

def workspacePage : Page where
  title := "Manifest"
  sections := [
    ⟨"Task", "Task", none,
      [⟨["default-task"], "cmd", .names ["string"], false, none, none, []⟩]⟩,
    ⟨"TargetPlatform", "TargetPlatform", none, []⟩]

theorem sections_checkedPage_workspace :
    workspace.checkedPage "Manifest" = .ok workspacePage ∧
      workspace.outline = [("Task", "default-task"), ("TargetPlatform", "target-platform")] ∧
      List.Forall₂ workspace.Opens workspace.outline workspacePage.sections ∧
      workspacePage.sections.map DefinitionSection.name = Fields.keys workspace.outline ∧
      (workspacePage.sections.map DefinitionSection.name).Nodup ∧
      ∀ name, name ∈ workspacePage.sections.map DefinitionSection.name ↔
        name ∈ workspace.usedDefinitions := by
  have hpage : workspace.page "Manifest" = .ok workspacePage := by
    with_unfolding_all rfl
  have h := checkedPage_eq_ok_iff.mpr ⟨rfl, hpage⟩
  exact ⟨h, rfl, sections_checkedPage h⟩

end Schema

end ConfigSchema
