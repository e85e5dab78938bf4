import ConfigSchema.Proofs.Schema.References

/-!
# What stands under `$ref`

`n.Mentions r` says that `r` stands under `$ref` in some object in `n`. Both the check of references
and the definitions in use depend on nothing else (`everywhere_referenceIn_iff_mentions`,
`mem_targets_iff`). So a definition can be replaced by a value that mentions the same, and neither
of the two notices (`checkReferences_withDefinition`, `mem_usedDefinitions_withDefinition`). A
definition that is itself called `$ref` is an exception, because it is what the map of definitions
mentions.
-/

namespace ConfigSchema

namespace Node

/-- Some object in the value has the second value under `$ref`. -/
inductive Mentions : Node → Node → Prop
  | own {fs : Object} {r : Node} (h : Fields.get? fs "$ref" = some r) : Mentions (.object fs) r
  | entry {fs : Object} {k : String} {v r : Node} (hv : (k, v) ∈ fs) (h : Mentions v r) :
      Mentions (.object fs) r
  | item {xs : List Node} {x r : Node} (hx : x ∈ xs) (h : Mentions x r) : Mentions (.array xs) r

variable {r : Node}

theorem not_mentions_scalar {n : Node} (ho : n.object? = none) (ha : n.array? = none) :
    ¬ n.Mentions r := by
  rintro (_ | _ | _)
  · cases ho
  · cases ho
  · cases ha

theorem mentions_array_iff {xs : List Node} :
    (array xs).Mentions r ↔ ∃ x ∈ xs, x.Mentions r := by
  constructor
  · rintro ⟨⟩
    next x hx h => exact ⟨x, hx, h⟩
  · rintro ⟨x, hx, h⟩
    exact .item hx h

theorem mentions_object_iff {fs : Object} : (object fs).Mentions r ↔
    Fields.get? fs "$ref" = some r ∨ ∃ k v, (k, v) ∈ fs ∧ v.Mentions r := by
  constructor
  · rintro (h | ⟨hv, h⟩)
    · exact .inl h
    · exact .inr ⟨_, _, hv, h⟩
  · rintro (h | ⟨k, v, hv, h⟩)
    · exact .own h
    · exact .entry hv h

/-- All references are in `D` exactly if each that is mentioned is. -/
theorem everywhere_referenceIn_iff_mentions {D : String → Prop} {n : Node} :
    n.Everywhere (Object.ReferenceIn D) ↔ ∀ r, n.Mentions r → ∃ reference name,
      r = .string reference ∧ Schema.targetName? reference = some name ∧ D name := by
  induction n using Node.induct with
  | scalar n ho ha =>
    exact iff_of_true (everywhere_scalar ho ha) fun r h => absurd h (not_mentions_scalar ho ha)
  | array xs ih =>
    rw [everywhere_array]
    constructor
    · intro h r hr
      obtain ⟨x, hx, hr⟩ := mentions_array_iff.mp hr
      exact (ih x hx).mp (h x hx) r hr
    · intro h x hx
      exact (ih x hx).mpr fun r hr => h r (.item hx hr)
  | object fs ih =>
    rw [everywhere_object]
    constructor
    · rintro ⟨hown, h⟩ r hr
      rcases mentions_object_iff.mp hr with hr | ⟨k, v, hv, hr⟩
      · exact hown r hr
      · exact (ih k v hv).mp (h k v hv) r hr
    · intro h
      refine ⟨fun r hr => h r (.own hr), fun k v hv => ?_⟩
      exact (ih k v hv).mpr fun r hr => h r (.entry hv hr)

/-- The definitions that references name are those that a text under `$ref` names. -/
theorem mem_targets_iff {name : String} {n : Node} : name ∈ n.targets ↔
    ∃ reference, n.Mentions (.string reference) ∧ Schema.targetName? reference = some name := by
  induction n using Node.induct with
  | scalar n ho ha =>
    refine iff_of_false ?_ fun ⟨reference, h, _⟩ => not_mentions_scalar ho ha h
    cases n with
    | object => cases ho
    | array => cases ha
    | _ => exact List.not_mem_nil
  | array xs ih =>
    rw [targets, mem_targetsItems]
    constructor
    · rintro ⟨x, hx, hname⟩
      obtain ⟨reference, h, hname⟩ := (ih x hx).mp hname
      exact ⟨reference, .item hx h, hname⟩
    · rintro ⟨reference, h, hname⟩
      obtain ⟨x, hx, h⟩ := mentions_array_iff.mp h
      exact ⟨x, hx, (ih x hx).mpr ⟨reference, h, hname⟩⟩
  | object fs ih =>
    rw [targets, List.mem_append, Object.mem_target_iff, mem_targetsFields]
    constructor
    · rintro (⟨reference, h, hname⟩ | ⟨k, v, hv, hname⟩)
      · exact ⟨reference, .own h, hname⟩
      · obtain ⟨reference, h, hname⟩ := (ih k v hv).mp hname
        exact ⟨reference, .entry hv h, hname⟩
    · rintro ⟨reference, h, hname⟩
      rcases mentions_object_iff.mp h with h | ⟨k, v, hv, h⟩
      · exact .inl ⟨reference, h, hname⟩
      · exact .inr ⟨k, v, hv, (ih k v hv).mpr ⟨reference, h, hname⟩⟩

/-- An entry is replaced by one that mentions the same. -/
theorem mentions_insert {fs : Object} {key : String} {v w : Node} (hfs : Fields.Distinct fs)
    (hkey : key ≠ "$ref") (hv : Fields.get? fs key = some v) (hw : w.Mentions r ↔ v.Mentions r) :
    (object (Fields.insert fs key w)).Mentions r ↔ (object fs).Mentions r := by
  rw [mentions_object_iff, mentions_object_iff, Fields.get?_insert, if_neg hkey]
  refine or_congr_right ?_
  simp only [Fields.mem_iff_get? hfs, Fields.mem_iff_get? (hfs.insert key w), Fields.get?_insert]
  constructor
  · rintro ⟨k, x, hx, h⟩
    split at hx
    · cases hx
      exact ⟨key, v, hv, hw.mp h⟩
    · exact ⟨k, x, hx, h⟩
  · rintro ⟨k, x, hx, h⟩
    by_cases hk : key = k
    · subst hk
      rw [hv] at hx
      cases hx
      exact ⟨key, w, if_pos rfl, hw.mpr h⟩
    · exact ⟨k, x, by rw [if_neg hk, hx], h⟩

end Node

/-! ### A definition is replaced -/

namespace Schema

/-- The schema with another value for one of its definitions. -/
def withDefinition (s : Schema) (name : String) (n : Node) (hn : n.Distinct) : Schema where
  root := s.root.insert "$defs" (.object (s.definitions.insert name n))
  distinct := s.distinct.insert "$defs" (s.distinct_definitions.insert name hn)

variable {s : Schema} {name : String} {n v : Node} {hn : n.Distinct}

theorem definitions_withDefinition (s : Schema) (name : String) (hn : n.Distinct) :
    (s.withDefinition name n hn).definitions = Fields.insert s.definitions name n := by
  rw [definitions, withDefinition, Object.definitions?, Object.object?, Fields.get?_insert,
    if_pos rfl]
  rfl

theorem keys_definitions_withDefinition (hv : s.definition? name = some v) :
    Fields.keys (s.withDefinition name n hn).definitions = Fields.keys s.definitions := by
  rw [definitions_withDefinition]
  exact Fields.keys_insert_of_mem n (mem_keys_of_definition? hv)

theorem definition?_withDefinition_of_ne {other : String} (h : other ≠ name) :
    (s.withDefinition name n hn).definition? other = s.definition? other := by
  rw [definition?, definitions_withDefinition, Fields.get?_insert, if_neg (Ne.symm h), definition?]

theorem properties_withDefinition (s : Schema) (name : String) (hn : n.Distinct) :
    (s.withDefinition name n hn).root.properties = s.root.properties := by
  rw [withDefinition, Object.properties, Object.properties?, Object.object?, Fields.get?_insert,
    if_neg (by decide)]
  rfl

theorem get?_root_of_definition? (hv : s.definition? name = some v) :
    Fields.get? s.root "$defs" = some (.object s.definitions) := by
  cases h : s.root.definitions? with
  | none =>
    rw [definition?, definitions, h] at hv
    cases hv
  | some definitions =>
    rw [Schema.definitions, h]
    exact Object.object?_eq_some_iff.mp h

section

variable (hname : name ≠ "$ref") (hv : s.definition? name = some v)
  (hmentions : ∀ r, n.Mentions r ↔ v.Mentions r)

include hname hv hmentions

theorem mentions_withDefinition (r : Node) :
    (s.withDefinition name n hn).toNode.Mentions r ↔ s.toNode.Mentions r := by
  have hdefinitions := Node.mentions_insert s.distinct_definitions.keys hname hv (hmentions r)
  exact Node.mentions_insert s.distinct.keys (by decide) (get?_root_of_definition? hv) hdefinitions

theorem checkReferences_withDefinition :
    (s.withDefinition name n hn).checkReferences = .ok () ↔ s.checkReferences = .ok () := by
  rw [checkReferences, Node.checkReferences_eq_ok_iff, checkReferences,
    Node.checkReferences_eq_ok_iff, keys_definitions_withDefinition hv,
    Node.everywhere_referenceIn_iff_mentions, Node.everywhere_referenceIn_iff_mentions]
  exact forall_congr' fun r => imp_congr_left (mentions_withDefinition hname hv hmentions r)

theorem mem_usedDefinitions_withDefinition (other : String) :
    other ∈ (s.withDefinition name n hn).usedDefinitions ↔ other ∈ s.usedDefinitions := by
  rw [mem_usedDefinitions, mem_usedDefinitions, Node.mem_targets_iff, Node.mem_targets_iff]
  refine exists_congr fun reference => and_congr_left fun _ => ?_
  exact mentions_withDefinition hname hv hmentions (.string reference)

end

end Schema

end ConfigSchema
