import ConfigSchema.Proofs.Docs.Flattening
import Mathlib.Logic.Function.Iterate

/-!
# One set of open definitions

`fieldSections` hands each property its own list of the definitions that may still be opened. The
sections can as well be found with a single set of the definitions that are open: a property that
opens a definition puts it into the set, finds the sections for the properties of the definition and
takes it out again (`openField`). Every call gives the set back as it was, so no property notices
what its siblings have opened, and the sections are the same (`iterate_openField`).

The set grows with each call inside another and holds definitions only. So calls that are nested as
often as there are definitions make no further call: what is plugged in below them has no influence
(`openField_restores`).
-/

namespace ConfigSchema

theorem Names.erase_insert {name : String} {xs : List String} (h : name ∉ xs) :
    (insert name xs).erase name = xs := by
  induction xs with
  | nil => exact List.erase_cons_head ..
  | cons x xs ih =>
    obtain ⟨hne, hxs⟩ := not_or.mp (mt List.mem_cons.mpr h)
    rw [insert, if_neg hne]
    split
    · exact List.erase_cons_head ..
    · rw [List.erase_cons_tail (by simpa using Ne.symm hne), ih hxs]

namespace Schema

/-- A way to find the sections for a field: in the table of that path, with the names that are
required there, the name of the field and what it says. The state is the set of open definitions. -/
abbrev FieldCall :=
  List String → List String → String → Node →
    StateT (List String) (Except SchemaError) (List FieldSection)

/-- The sections for a field, where those for the properties of a definition that it opens are found
by `call`. Meanwhile the definition is in the set. -/
def openField (s : Schema) (call : FieldCall) : FieldCall :=
  fun parent required name field opened =>
    let schema := field.object?.getD []
    let key := Naming.external name field
    let own := (s.fieldSection parent key (required.contains name) schema).map fun f => ([f], opened)
    match Object.reference? schema with
    | none => own
    | some reference => do
      let (target, definition) ← s.resolveReference reference
      match definition.properties? with
      | none => own
      | some properties =>
        if target ∈ opened then own
        else
          let (nested, opened) ← (properties.mapM fun e =>
            call (parent ++ [key]) definition.required e.1 e.2).run (Names.insert target opened)
          return (nested.flatten, opened.erase target)

/-- The section of a definition, with a call for each of its properties. They share one set. -/
def sectionThrough (s : Schema) (call : FieldCall) (name table : String) :
    Except SchemaError DefinitionSection := do
  let definition ← s.resolve name
  let (fields, _) ← (definition.properties.mapM fun e =>
    call [table] definition.required e.1 e.2).run [name]
  return {
    name
    heading := definition.title?.getD name
    description? := definition.description?
    fields := fields.flatten }

variable {s : Schema} {call : FieldCall} {opened parent required : List String} {p : Property}

/-! ### One call -/

theorem openField_of_plain (h : p.schema.reference? = none) :
    s.openField call parent required p.name p.field opened =
      (s.ownSection parent required p).map fun f => ([f], opened) := by
  unfold openField
  unfold Property.schema at h
  simp only [h]
  rfl

theorem openField_of_unresolved {reference : String} {e : SchemaError}
    (href : p.schema.reference? = some reference) (he : s.resolveReference reference = .error e) :
    s.openField call parent required p.name p.field opened = .error e := by
  unfold openField
  unfold Property.schema at href
  simp only [href, he]
  rfl

theorem openField_of_resolved {reference target : String} {definition : Object}
    (href : p.schema.reference? = some reference)
    (hres : s.resolveReference reference = .ok (target, definition)) :
    s.openField call parent required p.name p.field opened =
      match definition.properties? with
      | none => (s.ownSection parent required p).map fun f => ([f], opened)
      | some properties =>
        if target ∈ opened then (s.ownSection parent required p).map fun f => ([f], opened)
        else do
          let (nested, opened) ← (properties.mapM fun e =>
            call (parent ++ [p.key]) definition.required e.1 e.2).run (Names.insert target opened)
          return (nested.flatten, opened.erase target) := by
  unfold openField
  unfold Property.schema at href
  simp only [href, hres]
  rfl

theorem openField_of_leaf (h : s.Leaf opened p) :
    s.openField call parent required p.name p.field opened =
      (s.ownSection parent required p).map fun f => ([f], opened) := by
  rcases h with hplain | ⟨htarget, hdefinition, h⟩
  · exact openField_of_plain hplain
  · obtain ⟨reference, href, hres⟩ := exists_reference htarget hdefinition
    rw [openField_of_resolved href hres]
    rcases h with hnone | hopen
    · rw [hnone]
    · split
      · rfl
      · exact if_pos hopen

theorem openField_of_opens {target : String} {properties : Object}
    (htarget : p.target? = some target) (hproperties : s.propertiesOf? target = some properties)
    (hnew : target ∉ opened) :
    s.openField call parent required p.name p.field opened = do
      let (nested, opened) ← (properties.mapM fun e =>
        call (parent ++ [p.key]) (s.requiredBy target) e.1 e.2).run (Names.insert target opened)
      return (nested.flatten, opened.erase target) := by
  obtain ⟨definition, hdefinition, hps⟩ := propertiesOf?_eq_some hproperties
  obtain ⟨reference, href, hres⟩ := exists_reference htarget hdefinition
  rw [openField_of_resolved href hres, hps, requiredBy_eq hdefinition]
  exact if_neg hnew

/-! ### Calls inside calls -/

theorem closed_insert (target : String) :
    s.closed (Names.insert target opened) = s.closed (opened ++ [target]) := by
  refine List.filter_congr fun name _ => ?_
  simp [Names.mem_insert, or_comm]

theorem length_closed_lt_of_mem {name : String} (hopen : name ∈ opened)
    (hname : name ∈ Fields.keys s.definitions) :
    (s.closed opened).length < s.definitions.length := by
  have hlength : (Fields.keys s.definitions).length = s.definitions.length := List.length_map _
  rw [← hlength, closed, List.length_filter_lt_length_iff_exists]
  exact ⟨name, hname, by simpa using hopen⟩

/-- Where calls are nested more often than definitions are left to be opened, the outermost one
finds the sections for the field and gives the set back as it was. -/
theorem iterate_openField {n : Nat} (hn : (s.closed opened).length < n) :
    (s.openField^[n] call) parent required p.name p.field opened =
      (s.fieldSections (s.closed opened) parent required p.name p.field).map
        fun fs => (fs, opened) := by
  -- each level of calls has one more definition open than the level around it
  induction n generalizing opened parent required p with
  | zero => exact absurd hn (Nat.not_lt_zero _)
  | succ n ih =>
    rw [Function.iterate_succ_apply']
    rcases s.leaf_or_opens opened p with hleaf | ⟨reference, e, href, he⟩ |
      ⟨target, properties, htarget, hproperties, hnew⟩
    · rw [openField_of_leaf hleaf, fieldSections_of_leaf hleaf, Result.map_map]
    · rw [openField_of_unresolved href he, fieldSections_of_unresolved href he]
      rfl
    · have hlt : (s.closed (Names.insert target opened)).length < n := by
        obtain ⟨definition, hdefinition, -⟩ := propertiesOf?_eq_some hproperties
        have hclosed := length_closed_lt (mem_keys_of_definition? hdefinition) hnew
        rw [closed_insert]
        omega
      have hnested := Result.run_mapM_of_restores fun (e : String × Node) (_ : e ∈ properties) =>
        @ih (Names.insert target opened) (parent ++ [p.key]) (s.requiredBy target)
          ⟨target, e.1, e.2⟩ hlt
      rw [openField_of_opens htarget hproperties hnew,
        fieldSections_of_opens htarget hproperties hnew, ← closed_insert, hnested]
      cases properties.mapM fun e => s.fieldSections (s.closed (Names.insert target opened))
        (parent ++ [p.key]) (s.requiredBy target) e.1 e.2 with
      | error e => rfl
      | ok nested =>
        show Except.ok (nested.flatten, (Names.insert target opened).erase target) =
          .ok (nested.flatten, opened)
        rw [Names.erase_insert hnew]

/-! ### The section of a definition -/

theorem sectionThrough_iterate_openField {n : Nat} (hn : s.definitions.length ≤ n)
    (name table : String) :
    s.sectionThrough (s.openField^[n] call) name table = s.definitionSection name table := by
  unfold sectionThrough definitionSection
  cases hresolve : s.resolve name with
  | error e => rfl
  | ok definition =>
    have hname := mem_keys_of_definition? (resolve_eq_ok_iff.mp hresolve)
    have hlt := Nat.lt_of_lt_of_le (length_closed_lt_of_mem (List.mem_singleton_self name) hname) hn
    have hfields := Result.run_mapM_of_restores
      fun (e : String × Node) (_ : e ∈ definition.properties) =>
        @iterate_openField s call [name] [table] definition.required ⟨name, e.1, e.2⟩ n hlt
    rw [Result.ok_bind, Result.ok_bind, hfields, erase_definitions]
    dsimp only
    cases definition.properties.mapM fun e =>
      s.fieldSections (s.closed [name]) [table] definition.required e.1 e.2 <;> rfl

/-- The recursion that shares one set has no other solution than the sections. -/
theorem sectionThrough_of_openField_eq (h : s.openField call = call) (name table : String) :
    s.sectionThrough call name table = s.definitionSection name table := by
  have hiterate := @sectionThrough_iterate_openField s call _ (Nat.le_refl _) name table
  rwa [Function.iterate_fixed h] at hiterate

/-- Calls that are nested as often as there are definitions make no further call, and each of them
gives the set of open definitions back as it was. So a property finds the sections that are its own
whatever its siblings have opened. -/
theorem openField_restores {n : Nat} (hn : s.definitions.length ≤ n) (call : FieldCall) :
    (∀ opened name, name ∈ opened → name ∈ Fields.keys s.definitions →
      ∀ parent required (p : Property),
        (s.openField^[n] call) parent required p.name p.field opened =
          (s.fieldSections (s.closed opened) parent required p.name p.field).map
            fun fs => (fs, opened)) ∧
      ∀ name table,
        s.sectionThrough (s.openField^[n] call) name table = s.definitionSection name table := by
  refine ⟨fun opened name hopen hname parent required p => ?_, fun name table => ?_⟩
  · exact iterate_openField (Nat.lt_of_lt_of_le (length_closed_lt_of_mem hopen hname) hn)
  · exact sectionThrough_iterate_openField hn name table

/-- A task that refers to itself, and to an environment in two of its fields. The environment refers
to itself and back to the task. -/
def loops : Schema := ⟨[
  ("$defs", .object [
    ("Task", .object [
      ("properties", .object [
        ("before", .object [("$ref", .string "#/$defs/Task")]),
        ("build_env", .object [("$ref", .string "#/$defs/Env")]),
        ("run_env", .object [("$ref", .string "#/$defs/Env")])]),
      ("required", .array [.string "before"])]),
    ("Env", .object [
      ("properties", .object [
        ("setup", .object [("$ref", .string "#/$defs/Task")]),
        ("vars", .object [("$ref", .string "#/$defs/Env")])])])])], by decide⟩

/-- The section of the definition `Task` in the table `task`. -/
def loopsSection : DefinitionSection where
  name := "Task"
  heading := "Task"
  description? := none
  fields := [
    ⟨["task"], "before", .link "Task", true, none, none, []⟩,
    ⟨["task", "build-env"], "setup", .link "Task", false, none, none, []⟩,
    ⟨["task", "build-env"], "vars", .link "Env", false, none, none, []⟩,
    ⟨["task", "run-env"], "setup", .link "Task", false, none, none, []⟩,
    ⟨["task", "run-env"], "vars", .link "Env", false, none, none, []⟩]

/-- The field `build_env` of the task. -/
def loopsField : Property :=
  ⟨"Task", "build_env", .object [("$ref", .string "#/$defs/Env")]⟩

/-- A call that shows where it is made. -/
def deadEnd : FieldCall := fun _ _ _ _ _ => .error (.unsupported "")

/-- Two calls inside each other are enough for the two definitions, one is not. -/
theorem openField_restores_loops :
    loops.definitions.length = 2 ∧
      loops.openField deadEnd ["task"] [] loopsField.name loopsField.field ["Task"] =
        .error (.unsupported "") ∧
      (loops.openField^[2] deadEnd) ["task"] [] loopsField.name loopsField.field ["Task"] =
        .ok ((loopsSection.fields.drop 1).take 2, ["Task"]) ∧
      loops.sectionThrough (loops.openField^[2] deadEnd) "Task" "task" = .ok loopsSection := by
  have htarget : loopsField.target? = some "Env" := rfl
  have hproperties : loops.propertiesOf? "Env" = some [
      ("setup", .object [("$ref", .string "#/$defs/Task")]),
      ("vars", .object [("$ref", .string "#/$defs/Env")])] := rfl
  have hfield : loops.fieldSections (loops.closed ["Task"]) ["task"] [] loopsField.name
      loopsField.field = .ok ((loopsSection.fields.drop 1).take 2) := by
    with_unfolding_all rfl
  have hsection : loops.definitionSection "Task" "task" = .ok loopsSection := by
    with_unfolding_all rfl
  obtain ⟨hcalls, hsections⟩ := @openField_restores loops 2 (Nat.le_refl 2) deadEnd
  have hcall := hcalls ["Task"] "Task" (List.mem_singleton_self _) (by decide) ["task"] []
    loopsField
  refine ⟨rfl, ?_, ?_, (hsections "Task" "task").trans hsection⟩
  · rw [openField_of_opens htarget hproperties (by decide)]
    rfl
  · exact hcall.trans (congrArg (Except.map fun fs => (fs, ["Task"])) hfield)

end Schema

end ConfigSchema
