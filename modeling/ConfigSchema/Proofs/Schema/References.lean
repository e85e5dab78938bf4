import ConfigSchema.Proofs.Result
import ConfigSchema.Proofs.Schema.Keywords
import ConfigSchema.Schema.References

/-!
# When references can be followed

A reference can be followed exactly if it has the form of one and names a definition that is an
object (`resolveReference_eq_ok_iff`). The check of references asks for less: it passes exactly if
every object in the document either has no reference or has a text there that names a definition
(`checkReferences_eq_ok_iff`). Where in the document the objects stand, and in which order, has no
influence on that. It splits into a part about the texts alone and one about the names that are used
(`everywhere_referenceIn_iff`).
-/

namespace ConfigSchema

theorem SchemaError.malformedAt_child (location key : String) (expected : Expectation) :
    malformedAt (Pointer.child location key) expected =
      .malformed (Pointer.child location key) expected := by
  have hne : (Pointer.child location key).isEmpty = false := by
    rw [String.isEmpty_eq_false_iff]
    intro hempty
    have hchars := congrArg String.toList hempty
    simp [Pointer.child] at hchars
  rw [malformedAt, hne]
  rfl

namespace Schema

variable {s : Schema} {name : String}

/-! ### Definitions -/

theorem target_eq_ok_iff {reference : String} :
    Schema.target reference = .ok name ↔ targetName? reference = some name := by
  rw [Schema.target]
  cases targetName? reference <;> simp

theorem resolve_eq_ok_iff {definition : Object} :
    s.resolve name = .ok definition ↔ s.definition? name = some (.object definition) := by
  rw [resolve]
  split
  · next h => rw [h]; simp
  · next n hnot h =>
    refine iff_of_false (by simp) fun hd => ?_
    rw [h, Option.some.injEq] at hd
    exact hnot definition hd
  · next h => rw [h]; simp

theorem resolveReference_eq_ok_iff {reference target : String} {definition : Object} :
    s.resolveReference reference = .ok (target, definition) ↔
      targetName? reference = some target ∧ s.definition? target = some (.object definition) := by
  rw [resolveReference, Result.bind_eq_ok_iff]
  constructor
  · rintro ⟨name, hname, h⟩
    obtain ⟨definition', hdefinition, h⟩ := Result.bind_eq_ok_iff.mp h
    cases h
    exact ⟨target_eq_ok_iff.mp hname, resolve_eq_ok_iff.mp hdefinition⟩
  · rintro ⟨hname, hdefinition⟩
    refine ⟨target, target_eq_ok_iff.mpr hname, ?_⟩
    exact Result.bind_eq_ok_iff.mpr ⟨definition, resolve_eq_ok_iff.mpr hdefinition, rfl⟩

theorem mem_keys_of_definition? {n : Node} (h : s.definition? name = some n) :
    name ∈ Fields.keys s.definitions := by
  rw [← Fields.get?_isSome_iff]
  show (s.definition? name).isSome
  rw [h]
  rfl

theorem distinct_definitions (s : Schema) : (Node.object s.definitions).Distinct := by
  rw [definitions]
  cases h : s.root.definitions? with
  | none => exact Node.distinct_nil
  | some definitions => exact Node.Everywhere.object? s.distinct h

/-- What holds of all objects in a schema holds of those in its definitions. -/
theorem everywhere_definition {Q : Object → Prop} (hs : s.toNode.Everywhere Q) {n : Node}
    (hn : s.definition? name = some n) : n.Everywhere Q := by
  unfold definition? definitions at hn
  cases h : s.root.definitions? with
  | none => rw [h] at hn; cases hn
  | some definitions =>
    rw [h] at hn
    exact (hs.object? h).entry (Fields.mem_of_get? hn)

end Schema

/-! ### The check -/

/-- A reference that is there is a text that names one of the definitions `D`. -/
def Object.ReferenceIn (D : String → Prop) (o : Object) : Prop :=
  ∀ v, Fields.get? o "$ref" = some v → ∃ reference name, v = .string reference ∧
    Schema.targetName? reference = some name ∧ D name

variable {D : String → Prop} {definitions : Object} {location : String}

namespace Object

theorem ReferenceIn.mono {D' : String → Prop} (h : ∀ name, D name → D' name) {o : Object}
    (ho : o.ReferenceIn D) : o.ReferenceIn D' := by
  intro v hv
  obtain ⟨reference, name, rfl, hname, hD⟩ := ho v hv
  exact ⟨reference, name, rfl, hname, h name hD⟩

theorem ReferenceIn.target {o : Object} {reference : String} (ho : o.ReferenceIn D)
    (h : o.reference? = some reference) :
    ∃ name, Schema.targetName? reference = some name ∧ D name := by
  obtain ⟨_, name, hv, hname, hD⟩ := ho _ (text?_eq_some_iff.mp h)
  cases hv
  exact ⟨name, hname, hD⟩

theorem mem_target_iff {o : Object} {name : String} :
    name ∈ ((reference? o).bind Schema.targetName?).toList ↔
      ∃ reference, Fields.get? o "$ref" = some (.string reference) ∧
        Schema.targetName? reference = some name := by
  rw [Option.mem_toList, Option.bind_eq_some_iff]
  exact exists_congr fun reference => and_congr_left fun _ => text?_eq_some_iff

theorem referenceIn_iff {o : Object} :
    o.ReferenceIn D ↔ o.ReferenceIn (fun _ => True) ∧
      ∀ name ∈ ((reference? o).bind Schema.targetName?).toList, D name := by
  constructor
  · intro h
    refine ⟨h.mono fun _ _ => trivial, fun name hname => ?_⟩
    obtain ⟨reference, href, hname⟩ := mem_target_iff.mp hname
    obtain ⟨_, name', hv, hname', hD⟩ := h _ href
    cases hv
    rw [hname] at hname'
    cases hname'
    exact hD
  · rintro ⟨h, hD⟩ v hv
    obtain ⟨reference, name, rfl, hname, -⟩ := h v hv
    exact ⟨reference, name, rfl, hname, hD name (mem_target_iff.mpr ⟨reference, hv, hname⟩)⟩

theorem checkReference_eq_ok_iff {o : Object} :
    checkReference definitions location o = .ok () ↔
      o.ReferenceIn (· ∈ Fields.keys definitions) := by
  unfold checkReference
  split
  · next hnone =>
    refine iff_of_true rfl fun v hv => ?_
    rw [hnone] at hv
    cases hv
  · next reference href =>
    rw [Result.bind_eq_ok_iff]
    constructor
    · rintro ⟨name, hname, h⟩ v hv
      rw [href] at hv
      cases hv
      refine ⟨reference, name, rfl, Schema.target_eq_ok_iff.mp hname, ?_⟩
      split at h
      · next hc => exact (Fields.get?_isSome_iff definitions name).mp hc
      · cases h
    · intro h
      obtain ⟨_, name, hv, hname, hD⟩ := h _ href
      cases hv
      refine ⟨name, Schema.target_eq_ok_iff.mpr hname, ?_⟩
      have hc : Fields.contains definitions name = true :=
        (Fields.get?_isSome_iff definitions name).mpr hD
      rw [if_pos hc]
      rfl
  · next v hstring hv =>
    refine iff_of_false (by simp) fun h => ?_
    obtain ⟨reference, -, rfl, -⟩ := h v hv
    exact hstring reference rfl

end Object

namespace Node

theorem checkItems_eq_ok_iff {index : Nat} {xs : List Node} :
    checkItems definitions location index xs = .ok () ↔ ∀ (i : Nat) (x : Node), xs[i]? = some x →
      x.checkReferences definitions (Pointer.child location (toString (index + i))) = .ok () := by
  induction xs generalizing index with
  | nil => simp [checkItems]
  | cons x xs ih =>
    rw [checkItems, Result.andThen_eq_ok_iff, ih]
    constructor
    · rintro ⟨hx, h⟩ i y hy
      cases i with
      | zero => cases hy; exact hx
      | succ i => simpa [Nat.add_right_comm, Nat.add_assoc] using h i y hy
    · intro h
      refine ⟨h 0 x rfl, fun i y hy => ?_⟩
      simpa [Nat.add_right_comm, Nat.add_assoc] using h (i + 1) y hy

theorem checkFields_eq_ok_iff {fs : Object} :
    checkFields definitions location fs = .ok () ↔ ∀ k v, (k, v) ∈ fs →
      v.checkReferences definitions (Pointer.child location k) = .ok () := by
  induction fs with
  | nil => simp [checkFields]
  | cons e fs ih => rw [checkFields, Result.andThen_eq_ok_iff, ih, Fields.forall_mem_cons]

/-- The check of a value passes exactly if each object in it passes. -/
theorem checkReferences_eq_ok_iff {n : Node} {definitions : Object} {location : String} :
    n.checkReferences definitions location = .ok () ↔
      n.Everywhere (Object.ReferenceIn (· ∈ Fields.keys definitions)) := by
  induction n using Node.induct generalizing location with
  | scalar n ho ha =>
    refine iff_of_true ?_ (everywhere_scalar ho ha)
    cases n with
    | object => cases ho
    | array => cases ha
    | _ => rfl
  | array xs ih =>
    rw [checkReferences, checkItems_eq_ok_iff, everywhere_array]
    constructor
    · intro h x hx
      obtain ⟨i, hi⟩ := List.mem_iff_getElem?.mp hx
      exact (ih x hx).mp (h i x hi)
    · intro h i x hi
      have hx := List.mem_of_getElem? hi
      exact (ih x hx).mpr (h x hx)
  | object fs ih =>
    rw [checkReferences, Result.andThen_eq_ok_iff, Object.checkReference_eq_ok_iff,
      checkFields_eq_ok_iff, everywhere_object]
    refine and_congr Iff.rfl (forall₂_congr fun k v => forall_congr' fun hv => ?_)
    exact ih k v hv

theorem mem_targetsItems {xs : List Node} {name : String} :
    name ∈ targetsItems xs ↔ ∃ x ∈ xs, name ∈ x.targets := by
  induction xs with
  | nil => simp [targetsItems]
  | cons x xs ih => simp [targetsItems, ih]

theorem mem_targetsFields {fs : Object} {name : String} :
    name ∈ targetsFields fs ↔ ∃ k v, (k, v) ∈ fs ∧ name ∈ v.targets := by
  induction fs with
  | nil => simp [targetsFields]
  | cons e fs ih =>
    obtain ⟨key, w⟩ := e
    rw [targetsFields, List.mem_append, ih]
    constructor
    · rintro (h | ⟨k, v, hv, h⟩)
      · exact ⟨key, w, List.mem_cons_self .., h⟩
      · exact ⟨k, v, List.mem_cons_of_mem _ hv, h⟩
    · rintro ⟨k, v, hv, h⟩
      rcases List.mem_cons.mp hv with hv | hv
      · cases hv; exact .inl h
      · exact .inr ⟨k, v, hv, h⟩

/-- All references are in `D` exactly if they are well-formed and the names they use are in `D`. -/
theorem everywhere_referenceIn_iff {n : Node} :
    n.Everywhere (Object.ReferenceIn D) ↔
      n.Everywhere (Object.ReferenceIn fun _ => True) ∧ ∀ name ∈ n.targets, D name := by
  induction n using Node.induct with
  | scalar n ho ha =>
    refine iff_of_true (everywhere_scalar ho ha) ⟨everywhere_scalar ho ha, fun name hname => ?_⟩
    cases n with
    | object => cases ho
    | array => cases ha
    | _ => cases hname
  | array xs ih =>
    rw [everywhere_array, everywhere_array, targets]
    constructor
    · intro h
      refine ⟨fun x hx => ((ih x hx).mp (h x hx)).1, fun name hname => ?_⟩
      obtain ⟨x, hx, hname⟩ := mem_targetsItems.mp hname
      exact ((ih x hx).mp (h x hx)).2 name hname
    · rintro ⟨h, hD⟩ x hx
      exact (ih x hx).mpr ⟨h x hx, fun name hname => hD name (mem_targetsItems.mpr ⟨x, hx, hname⟩)⟩
  | object fs ih =>
    rw [everywhere_object, everywhere_object, targets, Object.referenceIn_iff]
    constructor
    · rintro ⟨⟨ho, hD⟩, h⟩
      refine ⟨⟨ho, fun k v hv => ((ih k v hv).mp (h k v hv)).1⟩, fun name hname => ?_⟩
      rcases List.mem_append.mp hname with hname | hname
      · exact hD name hname
      · obtain ⟨k, v, hv, hname⟩ := mem_targetsFields.mp hname
        exact ((ih k v hv).mp (h k v hv)).2 name hname
    · rintro ⟨⟨ho, h⟩, hD⟩
      refine ⟨⟨ho, fun name hname => hD name (List.mem_append_left _ hname)⟩, fun k v hv => ?_⟩
      refine (ih k v hv).mpr ⟨h k v hv, fun name hname => hD name (List.mem_append_right _ ?_)⟩
      exact mem_targetsFields.mpr ⟨k, v, hv, hname⟩

end Node

theorem Schema.mem_usedDefinitions {s : Schema} {name : String} :
    name ∈ s.usedDefinitions ↔ name ∈ s.toNode.targets :=
  Names.mem_ofList

/-- The check of a schema passes exactly if its references are well-formed and every definition
that is used exists. -/
theorem Schema.checkReferences_eq_ok_iff {s : Schema} :
    s.checkReferences = .ok () ↔
      s.toNode.Everywhere (Object.ReferenceIn fun _ => True) ∧
        ∀ name ∈ s.usedDefinitions, name ∈ Fields.keys s.definitions := by
  rw [checkReferences, Node.checkReferences_eq_ok_iff, Node.everywhere_referenceIn_iff]
  exact and_congr_right fun _ => forall_congr' fun name => imp_congr_left mem_usedDefinitions.symm

/-! ### Values in a schema that passes -/

namespace Schema

variable {s : Schema}

/-- Every reference in the value names a definition in use. -/
def Traced (s : Schema) (n : Node) : Prop :=
  n.Everywhere (Object.ReferenceIn (· ∈ s.usedDefinitions))

theorem Traced.target {o : Object} (ho : s.Traced (.object o)) {reference : String}
    (href : o.reference? = some reference) :
    ∃ name, targetName? reference = some name ∧ name ∈ s.usedDefinitions :=
  (Node.everywhere_object.mp ho).1.target href

theorem traced_toNode (h : s.checkReferences = .ok ()) : s.Traced s.toNode :=
  Node.everywhere_referenceIn_iff.mpr
    ⟨(checkReferences_eq_ok_iff.mp h).1, fun _ => mem_usedDefinitions.mpr⟩

theorem traced_definition (h : s.checkReferences = .ok ()) {name : String} {n : Node}
    (hn : s.definition? name = some n) : s.Traced n :=
  everywhere_definition (traced_toNode h) hn

theorem traced_property (h : s.checkReferences = .ok ()) {k : String} {v : Node}
    (hv : (k, v) ∈ s.root.properties) : s.Traced v :=
  Node.Everywhere.property (traced_toNode h) hv

end Schema

end ConfigSchema
