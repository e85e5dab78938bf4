import ConfigSchema.Proofs.Docs.Flattening
import ConfigSchema.Proofs.Docs.Outline

/-!
# Properties that leave no trace

A property that opens a definition is not listed itself: it is on the page as far as the properties
of that definition are. If those are an empty map, nothing stands in its place, and the properties
of another definition may all end so. `Vanishes` describes the properties that are lost this way.
All others have a field section, their own or one further down (`shows_checkedPage_iff`). What is
lost leads to a definition with an empty map of properties, from reference to reference
(`LeadsTo`).
-/

namespace ConfigSchema

namespace Schema

variable {s : Schema} {opened parent : List String} {p : Property} {d : DefinitionSection}
  {table : String}

/-- The property opens a definition while the ones in `opened` are open, and all properties of that
definition vanish in turn. -/
inductive Vanishes (s : Schema) : List String → Property → Prop
  | opens {opened : List String} {p : Property} {target : String} {properties : Object}
      (htarget : p.target? = some target)
      (hproperties : s.propertiesOf? target = some properties) (hnew : target ∉ opened)
      (h : ∀ e ∈ properties, Vanishes s (opened ++ [target]) ⟨target, e.1, e.2⟩) :
      Vanishes s opened p

/-- The property refers to the definition `target`, or to one with a property that leads to it. -/
inductive LeadsTo (s : Schema) (target : String) : Property → Prop
  | here {p : Property} (h : p.target? = some target) : LeadsTo s target p
  | through {p q : Property} (hlink : p.target? = some q.owner) (hq : s.Declares q)
      (h : LeadsTo s target q) : LeadsTo s target p

/-- Some field section of `d` stands for the property: its chain begins with the property, so its
path is that of the property or goes on from it. -/
def Shows (s : Schema) (table : String) (d : DefinitionSection) (p : Property) : Prop :=
  ∃ rest f, s.FieldChain d.name (p :: rest) ∧ f ∈ d.fields ∧ s.Documents table (p :: rest) f

theorem vanishes_of_opens {target : String} {properties : Object}
    (htarget : p.target? = some target) (hproperties : s.propertiesOf? target = some properties)
    (hnew : target ∉ opened) : s.Vanishes opened p ↔
      ∀ e ∈ properties, s.Vanishes (opened ++ [target]) ⟨target, e.1, e.2⟩ := by
  constructor
  · intro h
    obtain ⟨htarget', hproperties', -, h⟩ := h
    rw [htarget] at htarget'
    cases htarget'
    rw [hproperties] at hproperties'
    cases hproperties'
    exact h
  · intro h
    exact .opens htarget hproperties hnew h

theorem Leaf.not_vanishes (hleaf : s.Leaf opened p) : ¬ s.Vanishes opened p := by
  intro h
  obtain ⟨htarget, hproperties, hnew, -⟩ := h
  rcases hleaf with hplain | ⟨htarget', hdefinition, hl⟩
  · rw [Property.target?, hplain] at htarget
    cases htarget
  · rw [htarget] at htarget'
    cases htarget'
    rw [propertiesOf?_eq hdefinition] at hproperties
    rcases hl with hnone | hopen
    · rw [hnone] at hproperties
      cases hproperties
    · exact hnew hopen

/-- The sections for a property are none exactly if it vanishes. -/
theorem vanishes_iff_eq_nil {fs : List FieldSection}
    (h : s.fieldSections (s.closed opened) parent (s.requiredBy p.owner) p.name p.field = .ok fs) :
    s.Vanishes opened p ↔ fs = [] := by
  induction opened, p using @chains_induct s generalizing parent fs with
  | leaf opened p hleaf =>
    rw [fieldSections_of_leaf hleaf] at h
    obtain ⟨f, -, rfl⟩ := Result.map_eq_ok_iff.mp h
    exact iff_of_false hleaf.not_vanishes (List.cons_ne_nil f [])
  | unresolved opened p reference e href he =>
    rw [fieldSections_of_unresolved href he] at h
    cases h
  | opens opened p target properties htarget hproperties hnew ih =>
    rw [fieldSections_of_opens htarget hproperties hnew] at h
    obtain ⟨nested, hnested, h⟩ := Result.bind_eq_ok_iff.mp h
    cases h
    have hlists := Result.mapM_eq_ok_iff.mp hnested
    rw [vanishes_of_opens htarget hproperties hnew, List.flatten_eq_nil_iff]
    constructor
    · intro hall fs hfs
      obtain ⟨e, he, hfs⟩ := Result.exists_of_mem hlists.flip hfs
      exact (ih e hfs).mp (hall e he)
    · intro hall e he
      obtain ⟨fs, hmem, hfs⟩ := Result.exists_of_mem hlists he
      exact (ih e hfs).mpr (hall fs hmem)

/-- What vanishes leads to an empty map of properties. -/
theorem Vanishes.exists_empty (h : s.Vanishes opened p) :
    ∃ target, s.LeadsTo target p ∧ s.propertiesOf? target = some [] := by
  induction h with
  | @opens _ _ target properties htarget hproperties _ _ ih =>
    cases properties with
    | nil => exact ⟨target, .here htarget, hproperties⟩
    | cons e properties =>
      obtain ⟨last, hleads, hempty⟩ := ih e List.mem_cons_self
      have hget : Fields.get? (e :: properties) e.1 = some e.2 := by
        rw [Fields.get?_cons, if_pos rfl]
      have hdeclares : s.Declares ⟨target, e.1, e.2⟩ := ⟨e :: properties, hproperties, hget⟩
      exact ⟨last, .through htarget hdeclares hleads, hempty⟩

/-- A chain goes on to a property that stands for itself, so none of its properties vanishes. -/
theorem Unfolds.not_vanishes {rest : List Property} (h : s.Unfolds opened p rest) :
    ¬ s.Vanishes opened p := by
  induction rest generalizing opened p with
  | nil => exact (unfolds_nil.mp h).2.not_vanishes
  | cons q rest ih =>
    intro hvanishes
    obtain ⟨htarget, ⟨properties, hproperties, hget⟩, hrest⟩ := unfolds_cons.mp h
    have hnodup := (List.nodup_append.mp h.simple).2.2
    have hnew : q.owner ∉ opened := fun hmem => hnodup _ hmem _ (List.mem_cons_self ..) rfl
    have hq := (vanishes_of_opens htarget hproperties hnew).mp hvanishes _ (Fields.mem_of_get? hget)
    exact ih hrest hq

theorem FieldChain.not_vanishes {name : String} {rest : List Property}
    (h : s.FieldChain name (p :: rest)) : ¬ s.Vanishes [name] p := by
  obtain ⟨q, rest', heq, -, -, hunfolds⟩ := fieldChain_iff.mp h
  cases heq
  exact hunfolds.not_vanishes

/-- The section of a definition holds all field sections for each of its properties. -/
theorem Opens.exists_fieldSections (hd : s.Opens (d.name, table) d) (howner : p.owner = d.name)
    (hp : s.Declares p) :
    ∃ fs, s.fieldSections (s.closed [p.owner]) [table] (s.requiredBy p.owner) p.name p.field =
      .ok fs ∧ fs ⊆ d.fields := by
  obtain ⟨definition, hresolve, h⟩ := Result.bind_eq_ok_iff.mp hd
  obtain ⟨lists, hlists, h⟩ := Result.bind_eq_ok_iff.mp h
  have hfields : lists.flatten = d.fields := congrArg DefinitionSection.fields (Except.ok.inj h)
  have hdefinition := resolve_eq_ok_iff.mp hresolve
  obtain ⟨properties, hproperties, hget⟩ := hp
  rw [howner, propertiesOf?_eq hdefinition] at hproperties
  have hmem : (p.name, p.field) ∈ definition.properties := by
    rw [Object.properties, hproperties]
    exact Fields.mem_of_get? hget
  obtain ⟨fs, hfs, hsections⟩ := Result.exists_of_mem (Result.mapM_eq_ok_iff.mp hlists) hmem
  rw [← requiredBy_eq hdefinition, erase_definitions] at hsections
  refine ⟨fs, by rw [howner]; exact hsections, fun f hf => ?_⟩
  rw [← hfields]
  exact List.mem_flatten_of_mem hfs hf

/-- Each property of a section's definition is shown there, unless it vanishes. -/
theorem Opens.shows_iff (hd : s.Opens (d.name, table) d) (howner : p.owner = d.name)
    (hp : s.Declares p) : s.Shows table d p ↔ ¬ s.Vanishes [d.name] p := by
  obtain ⟨fs, hsections, hsubset⟩ := hd.exists_fieldSections howner hp
  unfold Shows
  rw [← howner]
  constructor
  · rintro ⟨rest, f, hchain, -, -⟩
    exact hchain.not_vanishes
  · intro hnot
    rw [vanishes_iff_eq_nil hsections] at hnot
    obtain ⟨f, hf⟩ := List.exists_mem_of_ne_nil fs hnot
    obtain ⟨chain, hchain, hsection⟩ :=
      Result.exists_of_mem (forall₂_sectionOf_chains hsections).flip hf
    have hsection : s.SectionOf [table] chain f := hsection
    obtain ⟨rest, rfl, hunfolds⟩ := (mem_chains (List.nodup_singleton _)).mp hchain
    have hfieldChain := fieldChain_iff.mpr ⟨p, rest, rfl, rfl, hp, hunfolds⟩
    exact ⟨rest, f, hfieldChain, hsubset hf, hsection.documents⟩

/-- A property of a definition with a section is shown there exactly if it does not vanish, and one
that vanishes leads to a definition with an empty map of properties. -/
theorem shows_checkedPage_iff {title : String} {page : Page}
    (h : s.checkedPage title = .ok page) (hd : d ∈ page.sections) :
    ∃ table, (d.name, table) ∈ s.outline ∧ s.Opens (d.name, table) d ∧
      ∀ p, p.owner = d.name → s.Declares p →
        (s.Shows table d p ↔ ¬ s.Vanishes [d.name] p) ∧
        (s.Vanishes [d.name] p →
          ∃ target, s.LeadsTo target p ∧ s.propertiesOf? target = some []) := by
  obtain ⟨-, hpage⟩ := checkedPage_eq_ok_iff.mp h
  have hopens := forall₂_opens_outline hpage
  obtain ⟨⟨name, table⟩, he, hed⟩ := Result.exists_of_mem hopens.flip hd
  have hed : s.Opens (name, table) d := hed
  rw [← show d.name = name from hed.name_eq] at he hed
  refine ⟨table, he, hed, fun p howner hp => ⟨hed.shows_iff howner hp, ?_⟩⟩
  intro hvanishes
  exact hvanishes.exists_empty

/-- One field of a task refers to a definition that has properties, but none. -/
def hollow : Schema := ⟨[
  ("properties", .object [("task", .object [("$ref", .string "#/$defs/Task")])]),
  ("$defs", .object [
    ("Task", .object [("properties", .object [
      ("cmd", .object [("type", .string "string")]),
      ("cache", .object [("$ref", .string "#/$defs/Cache")])])]),
    ("Cache", .object [("properties", .object [])])])], by decide⟩

def hollowPage : Page where
  title := "Manifest"
  sections := [
    ⟨"Task", "Task", none, [⟨["task"], "cmd", .names ["string"], false, none, none, []⟩]⟩,
    ⟨"Cache", "Cache", none, []⟩]

theorem checkedPage_hollow : hollow.checkedPage "Manifest" = .ok hollowPage := by
  refine checkedPage_eq_ok_iff.mpr ⟨rfl, ?_⟩
  with_unfolding_all rfl

theorem shows_checkedPage_iff_hollow :
    hollow.checkedPage "Manifest" = .ok hollowPage ∧
      ∃ d ∈ hollowPage.sections, d.name = "Task" ∧
      ∃ table, (d.name, table) ∈ hollow.outline ∧ hollow.Opens (d.name, table) d ∧
        ∀ p, p.owner = d.name → hollow.Declares p →
          (hollow.Shows table d p ↔ ¬ hollow.Vanishes [d.name] p) ∧
          (hollow.Vanishes [d.name] p →
            ∃ target, hollow.LeadsTo target p ∧ hollow.propertiesOf? target = some []) := by
  have hd : ⟨"Task", "Task", none, [⟨["task"], "cmd", .names ["string"], false, none, none, []⟩]⟩ ∈
      hollowPage.sections := List.mem_cons_self ..
  exact ⟨checkedPage_hollow, _, hd, rfl, shows_checkedPage_iff checkedPage_hollow hd⟩

/-- The field `cache` of `hollow` has no field section on the page. -/
theorem not_shows_checkedPage :
    ¬ ∀ (s : Schema) (title : String) (page : Page), s.checkedPage title = .ok page →
      ∀ d ∈ page.sections, ∀ p : Property, p.owner = d.name → s.Declares p →
      ∃ table, s.Shows table d p := by
  intro h
  have hd : ⟨"Task", "Task", none, [⟨["task"], "cmd", .names ["string"], false, none, none, []⟩]⟩ ∈
      hollowPage.sections := List.mem_cons_self ..
  have hp : hollow.Declares ⟨"Task", "cache", .object [("$ref", .string "#/$defs/Cache")]⟩ :=
    ⟨_, rfl, rfl⟩
  obtain ⟨table, rest, f, hchain, -, -⟩ :=
    h hollow "Manifest" hollowPage checkedPage_hollow _ hd _ rfl hp
  exact hchain.not_vanishes (@Vanishes.opens _ _ _ "Cache" [] rfl rfl (by decide) (by simp))

end Schema

end ConfigSchema
