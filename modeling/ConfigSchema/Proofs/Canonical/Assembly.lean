import ConfigSchema.Canonical.Form
import ConfigSchema.Proofs.Json.Fields
import ConfigSchema.Proofs.Result

/-!
# How the drafts of an object are put together

`inlineUnion_cases` says all that one union can do when its turn comes: fail, stay, or give way to
the entries of its only variant. From it follows what a whole assembly keeps: distinct keys, and
every property of entries that passes from a union of one variant to the entries of that variant
(`Holds.assemble`).
-/

namespace ConfigSchema

namespace Drafts

variable {d d' : Drafts} {key : String}

theorem inlineUnion_cases (h : d.inlineUnion key = .ok d') :
    (∃ variant : Object, d.get? key = some (.ok (.array [.object variant])) ∧
      d' = Fields.insertAll (d.erase key) (Fields.mapValues .ok variant)) ∨
    ((∀ variant, d.get? key ≠ some (.ok (.array [.object variant]))) ∧
      (∀ m, d.get? key ≠ some (.error m)) ∧ d' = d) := by
  unfold inlineUnion at h
  split at h
  · cases h
  · next variant hkey =>
    cases h
    exact .inl ⟨variant, hkey, rfl⟩
  · next herr hone =>
    cases h
    exact .inr ⟨fun variant hv => hone variant hv, fun m hm => herr m hm, rfl⟩

theorem inlineUnion_of_single {variant : Object}
    (h : d.get? key = some (.ok (.array [.object variant]))) :
    d.inlineUnion key = .ok (Fields.insertAll (d.erase key) (Fields.mapValues .ok variant)) := by
  simp [inlineUnion, h]

theorem inlineUnion_of_not_single
    (hone : ∀ variant, d.get? key ≠ some (.ok (.array [.object variant])))
    (herr : ∀ m, d.get? key ≠ some (.error m)) : d.inlineUnion key = .ok d := by
  unfold inlineUnion
  split
  · next m hm => exact absurd hm (herr m)
  · next variant hv => exact absurd hv (hone variant)
  · rfl

theorem dropNullDefault_of_ne (h : d.get? "default" ≠ some (.ok .null)) :
    d.dropNullDefault = d := by
  unfold dropNullDefault
  split
  · contradiction
  · rfl

theorem get?_dropNullDefault {k : String} (h : k ≠ "default") :
    d.dropNullDefault.get? k = d.get? k := by
  unfold dropNullDefault
  split
  · rw [Fields.get?_erase, if_neg (Ne.symm h)]
  · rfl

/-- What stands under a key once a variant has been inlined. -/
theorem get?_inlined {variant : Object} (hv : Fields.Distinct variant) (k : String) :
    (Fields.insertAll (d.erase key) (Fields.mapValues .ok variant)).get? k =
      ((Fields.get? variant k).map .ok).or (if key = k then none else d.get? k) := by
  rw [Fields.get?_insertAll (Fields.distinct_mapValues.mpr hv), Fields.get?_mapValues,
    Fields.get?_erase]

/-- It comes from the variant, or it was there before under another key than that of the union. -/
theorem inlined_cases {variant : Object} (hv : Fields.Distinct variant) {k : String}
    {r : Except Misfit Node}
    (h : (Fields.insertAll (d.erase key) (Fields.mapValues .ok variant)).get? k = some r) :
    (∃ w, Fields.get? variant k = some w ∧ r = .ok w) ∨ (key ≠ k ∧ d.get? k = some r) := by
  rw [get?_inlined hv] at h
  rcases Option.or_eq_some_iff.mp h with h | ⟨-, h⟩
  · obtain ⟨w, hw, hr⟩ := Option.map_eq_some_iff.mp h
    exact .inl ⟨w, hw, hr.symm⟩
  · split at h
    · cases h
    · next hne => exact .inr ⟨hne, h⟩

/-! ### Distinct keys -/

theorem distinct_dropNullDefault (h : d.Distinct) : d.dropNullDefault.Distinct := by
  unfold dropNullDefault
  split
  · exact h.erase _
  · exact h

theorem distinct_inlineUnion (h : d.inlineUnion key = .ok d') (hd : d.Distinct) : d'.Distinct := by
  rcases inlineUnion_cases h with ⟨variant, -, rfl⟩ | ⟨-, -, rfl⟩
  · exact (hd.erase _).insertAll _
  · exact hd

/-! ### The whole assembly -/

theorem distinct_inlineUnions {keys : List String} (h : keys.foldlM inlineUnion d = .ok d')
    (hd : d.Distinct) : d'.Distinct :=
  Result.foldlM_induct (fun _ _ _ _ => distinct_inlineUnion) h hd

theorem assemble_eq_ok_iff {o : Object} :
    d.assemble = .ok o ↔ ∃ entries : Object,
      unionKeys.foldlM inlineUnion d.dropNullDefault = .ok (Fields.mapValues .ok entries) ∧
        entries.sortBy KeyOrder.precedes = o := by
  simp only [assemble, Result.bind_eq_ok_iff, Fields.gather_eq_ok_iff, pure, Except.pure,
    Except.ok.injEq]
  constructor
  · rintro ⟨merged, hm, entries, rfl, rfl⟩; exact ⟨entries, hm, rfl⟩
  · rintro ⟨entries, hm, rfl⟩; exact ⟨_, hm, entries, rfl, rfl⟩

theorem assembleMap_eq_ok_iff {o : Object} :
    d.assembleMap = .ok o ↔ ∃ entries : Object, d = Fields.mapValues .ok entries ∧
      entries.sort = o := by
  rw [assembleMap, Fields.gather_eq_ok_iff]
  constructor
  · intro h
    have ⟨entries, he⟩ : ∃ entries, Fields.gather d = .ok entries := by
      refine Fields.exists_gather_iff.mpr fun k r hr => ?_
      have hr : (k, r) ∈ d.sort := Fields.mem_sortBy.mpr hr
      obtain ⟨v, -, rfl⟩ := Fields.mem_mapValues.mp (h ▸ hr)
      exact ⟨v, rfl⟩
    obtain rfl := Fields.gather_eq_ok_iff.mp he
    rw [Fields.sort_mapValues] at h
    exact ⟨entries, rfl, Fields.mapValues_ok_inj h⟩
  · rintro ⟨entries, rfl, rfl⟩
    exact Fields.sort_mapValues ..

/-! ### Properties of entries -/

/-- Every value that is there satisfies `Q` under its key. -/
def Holds (Q : String → Node → Prop) (d : Drafts) : Prop :=
  ∀ k v, (k, .ok v) ∈ d → Q k v

/-- `Q` passes from a union of one variant to the entries of the variant. -/
def Descends (Q : String → Node → Prop) : Prop :=
  ∀ key ∈ unionKeys, ∀ variant : Object, Q key (.array [.object variant]) →
    ∀ k v, (k, v) ∈ variant → Q k v

namespace Holds

variable {Q : String → Node → Prop}

theorem get? (h : Holds Q d) {k : String} {v : Node} (hv : d.get? k = some (.ok v)) : Q k v :=
  h k v (Fields.mem_of_get? hv)

theorem dropNullDefault (h : Holds Q d) : Holds Q d.dropNullDefault := by
  unfold Drafts.dropNullDefault
  split
  · exact fun k v hv => h k v (Fields.mem_of_mem_erase hv)
  · exact h

theorem inlineUnion (hQ : Descends Q) (hkey : key ∈ unionKeys) (h : d.inlineUnion key = .ok d')
    (hd : Holds Q d) : Holds Q d' := by
  rcases inlineUnion_cases h with ⟨variant, hone, rfl⟩ | ⟨-, -, rfl⟩
  · intro k v hv
    rcases Fields.mem_of_mem_insertAll hv with hv | hv
    · exact hd k v (Fields.mem_of_mem_erase hv)
    · obtain ⟨w, hw, hwv⟩ := Fields.mem_mapValues.mp hv
      cases hwv
      exact hQ key hkey variant (hd.get? hone) k v hw
  · exact hd

theorem assemble (hQ : Descends Q) (hd : Holds Q d) {o : Object} (h : d.assemble = .ok o)
    {k : String} {v : Node} (hv : (k, v) ∈ o) : Q k v := by
  obtain ⟨entries, hm, rfl⟩ := assemble_eq_ok_iff.mp h
  have hm : Holds Q (Fields.mapValues .ok entries) :=
    Result.foldlM_induct (fun key hkey _ _ h => inlineUnion hQ hkey h) hm hd.dropNullDefault
  exact hm k v (Fields.mem_mapValues.mpr ⟨v, Fields.mem_sortBy.mp hv, rfl⟩)

theorem assembleMap (hd : Holds Q d) {o : Object} (h : d.assembleMap = .ok o) {k : String}
    {v : Node} (hv : (k, v) ∈ o) : Q k v := by
  obtain ⟨entries, rfl, rfl⟩ := assembleMap_eq_ok_iff.mp h
  exact hd k v (Fields.mem_mapValues.mpr ⟨v, Fields.mem_sortBy.mp hv, rfl⟩)

end Holds

end Drafts

/-! ### The drafts of an object -/

/-- Roles in which an object is a schema. -/
def Role.TakesSchema : Role → Prop
  | .schema _ | .schemaOrData | .schemaOrFlag => True
  | _ => False

namespace Node

theorem canonical_of_takesSchema {role : Role} (h : role.TakesSchema) (fs : Object) :
    canonical role (object fs) = (Object.canonical fs).map object := by
  cases role with
  | schema | schemaOrData | schemaOrFlag => rfl
  | _ => exact h.elim

/-- The canonical form does not look into data. -/
theorem canonical_data (n : Node) : canonical .data n = .ok n := by
  cases n <;> rfl

variable {roles : String → Role} {fs : Object}

theorem canonicalFields_eq_mapEntries : canonicalFields roles fs =
    Fields.mapEntries (fun k v => (canonical (roles k) v).mapError (Misfit.under k)) fs := by
  induction fs with
  | nil => rfl
  | cons e fs ih => exact congrArg ((e.1, _) :: ·) ih

theorem keys_canonicalFields : Fields.keys (canonicalFields roles fs) = Fields.keys fs := by
  rw [canonicalFields_eq_mapEntries, Fields.keys_mapEntries]

theorem distinct_canonicalFields (h : Fields.Distinct fs) :
    Fields.Distinct (canonicalFields roles fs) := by
  unfold Fields.Distinct
  rwa [keys_canonicalFields]

theorem get?_canonicalFields (k : String) :
    Fields.get? (canonicalFields roles fs) k =
      (Fields.get? fs k).map fun v => (canonical (roles k) v).mapError (Misfit.under k) := by
  rw [canonicalFields_eq_mapEntries, Fields.get?_mapEntries]

theorem mem_canonicalFields {k : String} {m : Node} :
    (k, .ok m) ∈ canonicalFields roles fs ↔ ∃ v, (k, v) ∈ fs ∧ canonical (roles k) v = .ok m := by
  rw [canonicalFields_eq_mapEntries, Fields.mem_mapEntries]
  exact exists_congr fun v => and_congr_right fun _ => Result.mapError_eq_ok_iff

theorem holds_canonicalFields {Q : String → Node → Prop}
    (h : ∀ k v m, (k, v) ∈ fs → canonical (roles k) v = .ok m → Q k m) :
    Drafts.Holds Q (canonicalFields roles fs) := by
  intro k m hm
  obtain ⟨v, hv, hvm⟩ := mem_canonicalFields.mp hm
  exact h k v m hv hvm

end Node

/-! ### Inversion of the canonical form -/

/-- The role of the members of a map of schemas. -/
def Role.member? : Role → Option Role
  | .namedSchemas => some .schemaOrData
  | .patternSchemas => some (.schema .schemaObject)
  | _ => none

namespace Role

theorem takesSchema_of_mem {key : String} (h : key ∈ ["items", "additionalProperties"]) :
    (ofKey key).TakesSchema := by
  simp only [List.mem_cons, List.not_mem_nil, or_false] at h
  rcases h with rfl | rfl <;> exact trivial

theorem exists_member_of_mem {key : String}
    (h : key ∈ ["properties", "$defs", "patternProperties"]) :
    ∃ member, (ofKey key).member? = some member ∧ member.TakesSchema := by
  simp only [List.mem_cons, List.not_mem_nil, or_false] at h
  rcases h with rfl | rfl | rfl <;> exact ⟨_, rfl, trivial⟩

end Role

namespace Node

theorem canonical_of_member {role member : Role} (h : role.member? = some member) (map : Object) :
    canonical role (object map) =
      (Drafts.assembleMap (canonicalFields (fun _ => member) map)).map object := by
  cases role with
  | namedSchemas | patternSchemas => cases h; rfl
  | _ => cases h

theorem gatherItems_eq_ok_iff {rs : List (Except Misfit Node)} {vs : List Node} :
    gatherItems rs = .ok vs ↔ rs = vs.map .ok := by
  induction rs generalizing vs with
  | nil => cases vs <;> simp [gatherItems]
  | cons r rs ih =>
    simp only [gatherItems, Result.bind_eq_ok_iff, pure, Except.pure, Except.ok.injEq]
    constructor
    · rintro ⟨v, rfl, vs', hvs, rfl⟩
      rw [ih.mp hvs]; rfl
    · intro h
      cases vs with
      | nil => cases h
      | cons v vs =>
        obtain ⟨hr, hrs⟩ := List.cons.inj h
        exact ⟨v, hr, vs, ih.mpr hrs, rfl⟩

theorem canonicalItems_eq_map_ok_iff {index : Nat} {xs vs : List Node} :
    canonicalItems index xs = vs.map .ok ↔
      List.Forall₂ (fun x v => x.canonical (.schema .schemaObject) = .ok v) xs vs := by
  induction xs generalizing index vs with
  | nil => cases vs <;> simp [canonicalItems]
  | cons x xs ih =>
    cases vs with
    | nil => simp [canonicalItems]
    | cons v vs =>
      rw [canonicalItems, List.map_cons, List.cons.injEq, Result.mapError_eq_ok_iff, ih,
        List.forall₂_cons]

/-- A union becomes the list of its canonical variants that are not null. -/
theorem canonical_union_eq_ok_iff {xs : List Node} {m : Node} :
    canonical .union (array xs) = .ok m ↔ ∃ vs,
      List.Forall₂ (fun x v => x.canonical (.schema .schemaObject) = .ok v) xs vs ∧
        m = array (vs.filter fun v => !v.isNullSchema) := by
  rw [canonical, Result.map_eq_ok_iff]
  refine exists_congr fun vs => and_congr ?_ eq_comm
  rw [gatherItems_eq_ok_iff, canonicalItems_eq_map_ok_iff]

/-- A role that does not go into a value keeps it. -/
theorem eq_of_unchanged {role : Role} {n m : Node} (h : role.unchanged n = .ok m) : m = n := by
  unfold Role.unchanged at h
  split at h <;> cases h <;> rfl

/-- Each member of a map of schemas becomes its canonical form, under the name that it has. -/
theorem exists_entries_of_member {role member : Role} (hmember : role.member? = some member)
    {map : Object} {m : Node} (h : canonical role (object map) = .ok m) :
    ∃ entries : Object, m = object entries.sort ∧ Fields.keys entries = Fields.keys map ∧
      ∀ name v, Fields.get? map name = some v →
        ∃ w, Fields.get? entries name = some w ∧ canonical member v = .ok w := by
  rw [canonical_of_member hmember] at h
  obtain ⟨_, ho, rfl⟩ := Result.map_eq_ok_iff.mp h
  obtain ⟨entries, he, rfl⟩ := Drafts.assembleMap_eq_ok_iff.mp ho
  refine ⟨entries, rfl, ?_, fun name v hv => ?_⟩
  · rw [← Fields.keys_mapValues (Except.ok : Node → Except Misfit Node), ← he, keys_canonicalFields]
  · have hget := @get?_canonicalFields (fun _ => member) map name
    rw [he, Fields.get?_mapValues, hv] at hget
    obtain ⟨w, hw, hwv⟩ := Option.map_eq_some_iff.mp hget
    exact ⟨w, hw, Result.mapError_eq_ok_iff.mp hwv.symm⟩

/-- An object becomes a schema object or a map of schemas, or stays as it is. -/
theorem canonical_object_cases {role : Role} {fs : Object} {m : Node}
    (h : canonical role (object fs) = .ok m) :
    (role.TakesSchema ∧ ∃ o, Object.canonical fs = .ok o ∧ m = object o) ∨
    (∃ member, role.member? = some member ∧ ∃ o : Object,
      Drafts.assembleMap (canonicalFields (fun _ => member) fs) = .ok o ∧ m = object o) ∨
    (role = .data ∧ m = object fs) := by
  cases role with
  | schema | schemaOrData | schemaOrFlag =>
    obtain ⟨o, ho, rfl⟩ := Result.map_eq_ok_iff.mp h
    exact .inl ⟨trivial, o, ho, rfl⟩
  | namedSchemas | patternSchemas =>
    obtain ⟨o, ho, rfl⟩ := Result.map_eq_ok_iff.mp h
    exact .inr (.inl ⟨_, rfl, o, ho, rfl⟩)
  | union => cases h
  | data => cases h; exact .inr (.inr ⟨rfl, rfl⟩)

/-- A list becomes the list of its canonical members that are not null, or stays as it is. -/
theorem canonical_array_cases {role : Role} {xs : List Node} {m : Node}
    (h : canonical role (array xs) = .ok m) :
    (role = .union ∧ ∃ vs : List Node, m = array vs ∧
      ∀ v ∈ vs, v.isNullSchema = false ∧ ∃ x ∈ xs, x.canonical (.schema .schemaObject) = .ok v) ∨
    (role ≠ .union ∧ m = array xs) := by
  by_cases hrole : role = .union
  · subst hrole
    obtain ⟨vs, hvs, rfl⟩ := canonical_union_eq_ok_iff.mp h
    refine .inl ⟨rfl, _, rfl, fun v hv => ?_⟩
    obtain ⟨hv, hnull⟩ := List.mem_filter.mp hv
    exact ⟨by simpa using hnull, Result.exists_of_mem hvs.flip hv⟩
  · refine .inr ⟨hrole, ?_⟩
    cases role with
    | union => exact absurd rfl hrole
    | _ =>
      simp only [canonical] at h
      exact eq_of_unchanged h

end Node

/-! ### Canonical documents -/

theorem Object.canonicalAt_eq_ok_iff {o o' : Object} {location : String} :
    o.canonicalAt location = .ok o' ↔ o.canonical = .ok o' :=
  Result.mapError_eq_ok_iff

theorem Node.canonical_root {o o' : Object} (h : o.canonical = .ok o') :
    canonical .schemaOrData (object o) = .ok (object o') :=
  Result.map_eq_ok_iff.mpr ⟨o', h, rfl⟩

theorem Node.canonicalSchema_eq_ok_iff {n m : Node} :
    n.canonicalSchema = .ok m ↔
      ∃ o o' : Object, n = .object o ∧ o.canonical = .ok o' ∧ m = .object o' := by
  simp only [canonicalSchema, Result.bind_eq_ok_iff, Object.canonicalAt_eq_ok_iff, pure,
    Except.pure, Except.ok.injEq]
  constructor
  · rintro ⟨o, ho, o', ho', rfl⟩
    cases n with
    | object => cases ho; exact ⟨o, o', rfl, ho', rfl⟩
    | _ => cases ho
  · rintro ⟨o, o', rfl, ho', rfl⟩
    exact ⟨o, rfl, o', ho', rfl⟩

theorem Schema.canonical_eq_ok_iff {s : Schema} {n : Node} :
    s.canonical = .ok n ↔ ∃ o : Object, s.root.canonical = .ok o ∧ n = .object o := by
  rw [canonical, Result.map_eq_ok_iff]
  exact exists_congr fun o => and_congr Object.canonicalAt_eq_ok_iff eq_comm

end ConfigSchema
