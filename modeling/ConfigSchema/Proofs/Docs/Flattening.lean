import ConfigSchema.Docs.Section
import ConfigSchema.Proofs.Docs.Chain

/-!
# Flattening

A field that refers to a definition with properties gives way to the fields of that definition, so
the fields of a definition's section are the ends of the chains of references that begin at the
definition, in the order of the chains (`fields_definitionSection`). While definitions are open, the
ones that may still be opened are all the others (`erase_closed`); one step of the flattening is
then one step along a chain (`fieldSections_of_leaf`, `fieldSections_of_opens`).
-/

namespace ConfigSchema

namespace Schema

variable {s : Schema} {opened closed parent required : List String} {p : Property}

/-- The section of a property that stands for itself. -/
def ownSection (s : Schema) (parent required : List String) (p : Property) :
    Except SchemaError FieldSection :=
  s.fieldSection parent p.key (required.contains p.name) p.schema

theorem fieldSections_of_plain (h : p.schema.reference? = none) :
    s.fieldSections closed parent required p.name p.field =
      (s.ownSection parent required p).map fun f => [f] := by
  rw [fieldSections]
  unfold Property.schema at h
  simp only [h]
  rfl

theorem fieldSections_of_resolved {reference target : String} {definition : Object}
    (href : p.schema.reference? = some reference)
    (hres : s.resolveReference reference = .ok (target, definition)) :
    s.fieldSections closed parent required p.name p.field =
      match definition.properties? with
      | none => (s.ownSection parent required p).map fun f => [f]
      | some properties =>
        if target ∈ closed then do
          let nested ← properties.mapM fun e => s.fieldSections (closed.erase target)
            (parent ++ [p.key]) definition.required e.1 e.2
          return nested.flatten
        else (s.ownSection parent required p).map fun f => [f] := by
  rw [fieldSections]
  unfold Property.schema at href
  simp only [href, hres]
  show (match definition.properties? with
    | none => _
    | some properties => _) = _
  split
  · rfl
  · by_cases hclosed : target ∈ closed
    · exact (dif_pos hclosed).trans (if_pos hclosed).symm
    · exact (dif_neg hclosed).trans (if_neg hclosed).symm

/-- A definition that is opened is not opened again below. -/
theorem length_erase_lt {target : String} (h : target ∈ closed) :
    (closed.erase target).length < closed.length := by
  rw [List.length_erase_of_mem h]
  exact Nat.sub_one_lt_of_lt (List.length_pos_of_mem h)

theorem fieldSections_of_unresolved {reference : String} {e : SchemaError}
    (href : p.schema.reference? = some reference) (he : s.resolveReference reference = .error e) :
    s.fieldSections closed parent required p.name p.field = .error e := by
  rw [fieldSections]
  unfold Property.schema at href
  simp only [href, he, bind, Except.bind]

/-! ### While the definitions in `opened` are open -/

/-- The names that the definition `owner` requires. -/
def requiredBy (s : Schema) (owner : String) : List String :=
  (((s.definition? owner).bind Node.object?).map Object.required).getD []

theorem requiredBy_eq {owner : String} {definition : Object}
    (h : s.definition? owner = some (.object definition)) :
    s.requiredBy owner = definition.required := by
  rw [requiredBy, h]
  rfl

theorem mem_closed {target : String} : target ∈ s.closed opened ↔
    target ∈ Fields.keys s.definitions ∧ target ∉ opened := by
  simp [closed]

theorem erase_closed (target : String) :
    (s.closed opened).erase target = s.closed (opened ++ [target]) := by
  have hkeys : (Fields.keys s.definitions).Nodup := s.distinct_definitions.keys
  have hclosed : (s.closed opened).Nodup := hkeys.filter _
  rw [hclosed.erase_eq_filter, closed_append]
  exact List.filter_congr fun name _ => by simp [bne, beq_eq_decide]

/-- In the section of a definition, only that one is open at first. -/
theorem erase_definitions (name : String) :
    (Fields.keys s.definitions).erase name = s.closed [name] := by
  rw [← List.nil_append [name], ← erase_closed, closed_nil]

theorem fieldSections_of_leaf (h : s.Leaf opened p) :
    s.fieldSections (s.closed opened) parent required p.name p.field =
      (s.ownSection parent required p).map fun f => [f] := by
  rcases h with hplain | ⟨htarget, hdefinition, h⟩
  · exact fieldSections_of_plain hplain
  · obtain ⟨reference, href, hres⟩ := exists_reference htarget hdefinition
    rw [fieldSections_of_resolved href hres]
    rcases h with hnone | hopen
    · rw [hnone]
    · split
      · rfl
      · exact if_neg fun hclosed => (mem_closed.mp hclosed).2 hopen

theorem fieldSections_of_opens {target : String} {properties : Object}
    (htarget : p.target? = some target) (hproperties : s.propertiesOf? target = some properties)
    (hnew : target ∉ opened) :
    s.fieldSections (s.closed opened) parent required p.name p.field = do
      let nested ← properties.mapM fun e => s.fieldSections (s.closed (opened ++ [target]))
        (parent ++ [p.key]) (s.requiredBy target) e.1 e.2
      return nested.flatten := by
  obtain ⟨definition, hdefinition, hps⟩ := propertiesOf?_eq_some hproperties
  obtain ⟨reference, href, hres⟩ := exists_reference htarget hdefinition
  have hclosed := mem_closed.mpr ⟨mem_keys_of_definition? hdefinition, hnew⟩
  rw [fieldSections_of_resolved href hres, hps, ← erase_closed, requiredBy_eq hdefinition]
  exact if_pos hclosed

/-! ### Sections and chains -/

theorem fieldSection_eq_ok {key : String} {isRequired : Bool} {field : Object} {f : FieldSection}
    (h : s.fieldSection parent key isRequired field = .ok f) :
    f.parent = parent ∧ f.key = key ∧ f.required = isRequired := by
  obtain ⟨label, -, h⟩ := Result.bind_eq_ok_iff.mp h
  cases h
  exact ⟨rfl, rfl, rfl⟩

/-- `f` is the section of the field that the chain leads to, the table at its beginning being
`parent`. -/
def SectionOf (s : Schema) (parent : List String) (chain : List Property) (f : FieldSection) :
    Prop :=
  ∃ init p, chain = init ++ [p] ∧
    s.ownSection (parent ++ init.map Property.key) (s.requiredBy p.owner) p = .ok f

theorem SectionOf.cons {chain : List Property} {f : FieldSection}
    (h : s.SectionOf (parent ++ [p.key]) chain f) : s.SectionOf parent (p :: chain) f := by
  obtain ⟨init, q, rfl, hf⟩ := h
  refine ⟨p :: init, q, rfl, ?_⟩
  rwa [List.map_cons, List.append_cons]

/-- The sections for a property are those of the chains that begin with it. -/
theorem forall₂_sectionOf_chains {fs : List FieldSection}
    (h : s.fieldSections (s.closed opened) parent (s.requiredBy p.owner) p.name p.field = .ok fs) :
    List.Forall₂ (s.SectionOf parent) (s.chains opened p) fs := by
  induction opened, p using @chains_induct s generalizing parent fs with
  | leaf opened p hleaf =>
    rw [fieldSections_of_leaf hleaf] at h
    obtain ⟨f, hf, rfl⟩ := Result.map_eq_ok_iff.mp h
    rw [chains_of_leaf hleaf]
    exact .cons ⟨[], p, rfl, by simpa using hf⟩ .nil
  | unresolved opened p reference e href he =>
    rw [fieldSections_of_unresolved href he] at h
    cases h
  | opens opened p target properties htarget hproperties hnew ih =>
    rw [fieldSections_of_opens htarget hproperties hnew] at h
    obtain ⟨nested, hnested, h⟩ := Result.bind_eq_ok_iff.mp h
    cases h
    have hlists := (Result.mapM_eq_ok_iff.mp hnested).imp fun e fs hfs => ih e hfs
    rw [chains_of_opens htarget hproperties hnew, List.forall₂_map_left_iff]
    have hflat := List.rel_flatten (List.forall₂_map_left_iff.mpr hlists)
    exact hflat.imp fun chain f => SectionOf.cons

end Schema

/-! ### The fields of a definition -/

namespace Naming

theorem path_append_singleton {parent : List String} (h : parent ≠ []) (key : String) :
    path (parent ++ [key]) = path parent ++ "." ++ key := by
  rw [path, path, String.intercalate_append_of_ne_nil h (by simp), String.intercalate_singleton]

/-- Only the table of the empty name has an empty path. -/
theorem isEmpty_path_cons {table : String} {keys : List String} :
    (path (table :: keys)).isEmpty = true ↔ table = "" ∧ keys = [] := by
  rw [String.isEmpty_iff]
  cases keys with
  | nil => rw [path, String.intercalate_singleton]; simp
  | cons key keys =>
    rw [path, String.intercalate_cons_of_ne_nil (by simp), String.append_eq_empty_iff,
      String.append_eq_empty_iff]
    simp

end Naming

/-- The path of a field goes on from that of its table, unless that is the document itself. -/
theorem FieldSection.path_eq {f : FieldSection} {table : String} {keys : List String}
    (h : f.parent = table :: keys) : f.path = Naming.path
      (if table = "" ∧ keys = [] then [f.key] else table :: (keys ++ [f.key])) := by
  rw [FieldSection.path, h]
  by_cases hempty : table = "" ∧ keys = []
  · rw [if_pos hempty, if_pos (Naming.isEmpty_path_cons.mpr hempty)]
    exact String.intercalate_singleton.symm
  · rw [if_neg hempty, if_neg (mt Naming.isEmpty_path_cons.mp hempty), ← List.cons_append,
      Naming.path_append_singleton (List.cons_ne_nil table keys)]

namespace Schema

variable {s : Schema}

/-- `f` is the section of the field that the chain leads to. The chain gives the path of the field
in the table at its beginning, and its last definition says whether the field is required. -/
structure Documents (s : Schema) (table : String) (chain : List Property) (f : FieldSection) :
    Prop where
  path : f.path = Naming.path
    (if table = "" ∧ chain.length = 1 then chain.map Property.key
      else table :: chain.map Property.key)
  required : f.required = true ↔ ∃ (last : Property) (definition : Object),
    chain.getLast? = some last ∧ s.definition? last.owner = some (.object definition) ∧
      .string last.name ∈ definition.items "required"
  content : ∃ last, chain.getLast? = some last ∧
    s.fieldSection f.parent last.key f.required last.schema = .ok f

theorem contains_requiredBy_iff {owner name : String} : (s.requiredBy owner).contains name = true ↔
    ∃ definition : Object, s.definition? owner = some (.object definition) ∧
      .string name ∈ definition.items "required" := by
  rw [List.contains_iff_mem]
  constructor
  · intro h
    unfold requiredBy at h
    cases hdefinition : (s.definition? owner).bind Node.object? with
    | none => rw [hdefinition] at h; cases h
    | some definition =>
      rw [hdefinition] at h
      have hdefinition := Node.bind_object?_eq_some_iff.mp hdefinition
      exact ⟨definition, hdefinition, Object.mem_required_iff.mp h⟩
  · rintro ⟨definition, hdefinition, h⟩
    rw [requiredBy_eq hdefinition]
    exact Object.mem_required_iff.mpr h

theorem SectionOf.documents {table : String} {chain : List Property} {f : FieldSection}
    (h : s.SectionOf [table] chain f) : s.Documents table chain f := by
  obtain ⟨init, p, rfl, hf⟩ := h
  have hlast : (init ++ [p]).getLast? = some p := List.getLast?_concat
  obtain ⟨hparent, hkey, hrequired⟩ := fieldSection_eq_ok hf
  have hkeys : (init ++ [p]).map Property.key = init.map Property.key ++ [f.key] := by
    rw [List.map_append, hkey, List.map_singleton]
  refine ⟨?_, ?_, p, hlast, ?_⟩
  · rw [FieldSection.path_eq hparent, hkeys]
    cases init with
    | nil => simp
    | cons q init => simp
  · rw [hrequired, contains_requiredBy_iff]
    simp [hlast]
  · rw [hparent, hrequired]
    exact hf

theorem forall₂_sectionOf_fieldChains {name table : String} {d : DefinitionSection}
    (h : s.definitionSection name table = .ok d) :
    List.Forall₂ (s.SectionOf [table]) (s.fieldChains name) d.fields := by
  obtain ⟨definition, hresolve, h⟩ := Result.bind_eq_ok_iff.mp h
  obtain ⟨fields, hfields, h⟩ := Result.bind_eq_ok_iff.mp h
  cases h
  have hdefinition := resolve_eq_ok_iff.mp hresolve
  rw [← requiredBy_eq hdefinition, erase_definitions] at hfields
  have hlists := (Result.mapM_eq_ok_iff.mp hfields).imp fun e fs hfs =>
    @forall₂_sectionOf_chains s [name] [table] ⟨name, e.1, e.2⟩ fs hfs
  rw [fieldChains_eq hdefinition]
  exact List.rel_flatten (List.forall₂_map_left_iff.mpr hlists)

theorem forall₂_documents_fieldChains {name table : String} {d : DefinitionSection}
    (h : s.definitionSection name table = .ok d) :
    List.Forall₂ (s.Documents table) (s.fieldChains name) d.fields :=
  (forall₂_sectionOf_fieldChains h).imp fun _ _ => SectionOf.documents

/-- The fields of a definition's section are those that the chains of references from the definition
lead to, one for each chain, in the order of the chains. -/
theorem fields_definitionSection {name table : String} {d : DefinitionSection}
    (h : s.definitionSection name table = .ok d) :
    ∃ chains : List (List Property), (∀ chain, chain ∈ chains ↔ s.FieldChain name chain) ∧
      chains.Nodup ∧ chains.Pairwise (List.Lex s.Earlier) ∧
      List.Forall₂ (s.Documents table) chains d.fields :=
  ⟨s.fieldChains name, fun _ => mem_fieldChains, nodup_fieldChains, pairwise_fieldChains,
    forall₂_documents_fieldChains h⟩

/-- Two definitions that refer to each other, each of which requires one of its fields. -/
def tree : Schema := ⟨[
  ("$defs", .object [
    ("Tree", .object [
      ("properties", .object [
        ("value", .object [("type", .string "string")]),
        ("branches", .object [("$ref", .string "#/$defs/Branches")])]),
      ("required", .array [.string "branches"])]),
    ("Branches", .object [
      ("properties", .object [
        ("left_tree", .object [("$ref", .string "#/$defs/Tree")]),
        ("size", .object [("type", .string "integer")])]),
      ("required", .array [.string "size"])])])], by decide⟩

/-- The section of the definition `Tree` in the table `tree`. -/
def treeSection : DefinitionSection where
  name := "Tree"
  heading := "Tree"
  description? := none
  fields := [
    ⟨["tree"], "value", .names ["string"], false, none, none, []⟩,
    ⟨["tree", "branches"], "left-tree", .link "Tree", false, none, none, []⟩,
    ⟨["tree", "branches"], "size", .names ["integer"], true, none, none, []⟩]

theorem fields_definitionSection_tree :
    tree.definitionSection "Tree" "tree" = .ok treeSection ∧
      treeSection.fields.map FieldSection.path =
        ["tree.value", "tree.branches.left-tree", "tree.branches.size"] ∧
      ∃ chains : List (List Property), (∀ chain, chain ∈ chains ↔ tree.FieldChain "Tree" chain) ∧
        chains.Nodup ∧ chains.Pairwise (List.Lex tree.Earlier) ∧
        List.Forall₂ (tree.Documents "tree") chains treeSection.fields := by
  have h : tree.definitionSection "Tree" "tree" = .ok treeSection := by
    with_unfolding_all rfl
  exact ⟨h, by decide, fields_definitionSection h⟩

/-- A definition whose fields stand in the document itself. -/
def spread : Schema := ⟨[
  ("properties", .object [
    ("w", .object [("alias", .string ""), ("$ref", .string "#/$defs/W")])]),
  ("$defs", .object [
    ("W", .object [("properties", .object [("a", .object [("type", .string "string")])])])])],
  by decide⟩

/-- The path of a field does not always go on from that of the table with a point. -/
theorem not_fields_definitionSection_path :
    ¬ ∀ (s : Schema) (name table : String) (d : DefinitionSection),
      s.definitionSection name table = .ok d →
      ∃ chains : List (List Property), (∀ chain, chain ∈ chains ↔ s.FieldChain name chain) ∧
        chains.Nodup ∧ chains.Pairwise (List.Lex s.Earlier) ∧
        List.Forall₂ (fun chain f => f.path = Naming.path (table :: chain.map Property.key))
          chains d.fields := by
  intro h
  have hsection : spread.definitionSection "W" "" =
      .ok ⟨"W", "W", none, [⟨[""], "a", .names ["string"], false, none, none, []⟩]⟩ := by
    with_unfolding_all rfl
  obtain ⟨chains, -, -, -, hpaths⟩ := h spread "W" "" _ hsection
  obtain ⟨chain, -, hpath, -, -⟩ := List.forall₂_cons_right_iff.mp hpaths
  have hfield : FieldSection.path ⟨[""], "a", .names ["string"], false, none, none, []⟩ = "a" := by
    decide
  rw [hfield] at hpath
  -- the path on the right is empty or begins with a point
  cases hkeys : chain.map Property.key with
  | nil =>
    rw [hkeys] at hpath
    exact absurd hpath (by decide)
  | cons key keys =>
    rw [hkeys, Naming.path, String.intercalate_cons_of_ne_nil (List.cons_ne_nil key keys)] at hpath
    have hchars := congrArg String.toList hpath
    simp at hchars

end Schema

end ConfigSchema
