import ConfigSchema.Proofs.Canonical.Assembly

/-!
# Canonical values

`Node.Normal role n` describes the values that are in canonical form in their role, without looking
at how one gets there: in a schema object nothing is left to give way and the keys stand in order
(`Object.Settled`), a map of schemas is sorted, and what they hold is normal. Every canonical form
is normal (`normal_of_canonical`) and a normal value is its own canonical form
(`Normal.canonical_eq`), so forming it a second time changes nothing.

The first half rests on `Drafts.Settling`, which holds between any two unions of an assembly: a
union that gives way brings in a normal object, so it cannot bring back a null default or a union
of one variant, not even under a keyword whose turn is over.
-/

namespace ConfigSchema

/-- A schema object in which nothing is left to give way, with its keys in order. -/
structure Object.Settled (o : Object) : Prop where
  distinct : Fields.Distinct o
  ordered : o.Pairwise fun x y => KeyOrder.precedes x.1 y.1 = true
  default : Fields.get? o "default" ≠ some .null
  union : ∀ key ∈ Drafts.unionKeys, ∀ v, Fields.get? o key ≠ some (.array [v])

/-- A map with its names in order. -/
structure Object.Sorted (o : Object) : Prop where
  distinct : Fields.Distinct o
  ordered : o.Pairwise fun x y => Fields.nameLe x.1 y.1 = true

namespace Node

mutual

/-- The value is in canonical form in its role. -/
def Normal (role : Role) : Node → Prop
  | object fs =>
    match role with
    | .schema _ | .schemaOrData | .schemaOrFlag => Object.Settled fs ∧ NormalFields Role.ofKey fs
    | .namedSchemas => Object.Sorted fs ∧ NormalFields (fun _ => .schemaOrData) fs
    | .patternSchemas => Object.Sorted fs ∧ NormalFields (fun _ => .schema .schemaObject) fs
    | .union => False
    | .data => True
  | array xs =>
    match role with
    | .union => NormalItems xs
    | role => role.unchanged (array xs) = .ok (array xs)
  | n => role.unchanged n = .ok n

def NormalFields (roles : String → Role) : Object → Prop
  | [] => True
  | (k, v) :: fs => Normal (roles k) v ∧ NormalFields roles fs

/-- The items are schemas in canonical form, none of them of type null. -/
def NormalItems : List Node → Prop
  | [] => True
  | x :: xs => (Normal (.schema .schemaObject) x ∧ x.isNullSchema = false) ∧ NormalItems xs

end

theorem normalFields_iff {roles : String → Role} {fs : Object} :
    NormalFields roles fs ↔ ∀ k v, (k, v) ∈ fs → v.Normal (roles k) := by
  induction fs with
  | nil => simp [NormalFields]
  | cons e fs ih => rw [NormalFields, ih, Fields.forall_mem_cons]

theorem normalItems_iff {xs : List Node} :
    NormalItems xs ↔ ∀ x ∈ xs, x.Normal (.schema .schemaObject) ∧ x.isNullSchema = false := by
  induction xs with
  | nil => simp [NormalItems]
  | cons x xs ih => simp [NormalItems, ih]

theorem normal_union_iff {xs : List Node} : (array xs).Normal .union ↔
    ∀ x ∈ xs, x.Normal (.schema .schemaObject) ∧ x.isNullSchema = false := by
  rw [Normal, normalItems_iff]

theorem normal_iff_of_takesSchema {role : Role} (h : role.TakesSchema) {fs : Object} :
    (object fs).Normal role ↔
      Object.Settled fs ∧ ∀ k v, (k, v) ∈ fs → v.Normal (Role.ofKey k) := by
  rw [← normalFields_iff]
  cases role with
  | schema | schemaOrData | schemaOrFlag => exact Iff.rfl
  | _ => exact h.elim

theorem normal_schema_iff {fs : Object} {expected : Expectation} :
    (object fs).Normal (.schema expected) ↔
      Object.Settled fs ∧ ∀ k v, (k, v) ∈ fs → v.Normal (Role.ofKey k) :=
  @normal_iff_of_takesSchema (.schema expected) trivial fs

theorem normal_iff_of_member {role member : Role} (h : role.member? = some member) {fs : Object} :
    (object fs).Normal role ↔ Object.Sorted fs ∧ ∀ k v, (k, v) ∈ fs → v.Normal member := by
  rw [← @normalFields_iff fun _ => member]
  cases role with
  | namedSchemas | patternSchemas => cases h; exact Iff.rfl
  | _ => cases h

theorem Normal.exists_object {n : Node} {expected : Expectation}
    (h : n.Normal (.schema expected)) : ∃ fs, n = .object fs := by
  cases n with
  | object fs => exact ⟨fs, rfl⟩
  | _ => simp [Normal, Role.unchanged] at h

theorem exists_map_object {xs : List Node} (h : ∀ x ∈ xs, ∃ fs, x = .object fs) :
    ∃ os : List Object, xs = os.map .object := by
  induction xs with
  | nil => exact ⟨[], rfl⟩
  | cons x xs ih =>
    obtain ⟨o, rfl⟩ := h x (List.mem_cons_self ..)
    obtain ⟨os, rfl⟩ := ih fun x hx => h x (List.mem_cons_of_mem _ hx)
    exact ⟨o :: os, rfl⟩

/-! ### Nothing changes a normal value -/

theorem canonicalFields_of_fixed {roles : String → Role} {fs : Object}
    (h : ∀ k v, (k, v) ∈ fs → v.canonical (roles k) = .ok v) :
    canonicalFields roles fs = Fields.mapValues .ok fs := by
  rw [canonicalFields_eq_mapEntries]
  show _ = Fields.mapEntries (fun _ => Except.ok) fs
  refine Fields.mapEntries_congr fun k v hv => ?_
  rw [h k v hv]
  rfl

theorem canonicalItems_of_fixed {xs : List Node} (index : Nat)
    (h : ∀ x ∈ xs, x.canonical (.schema .schemaObject) = .ok x) :
    canonicalItems index xs = xs.map .ok := by
  induction xs generalizing index with
  | nil => rfl
  | cons x xs ih =>
    rw [canonicalItems, h x (List.mem_cons_self ..),
      ih (index + 1) fun x hx => h x (List.mem_cons_of_mem _ hx)]
    rfl

end Node

namespace Drafts

theorem dropNullDefault_of_settled {o : Object} (h : o.Settled) :
    dropNullDefault (Fields.mapValues .ok o) = Fields.mapValues .ok o := by
  refine dropNullDefault_of_ne fun hnull => ?_
  rw [Fields.get?_mapValues] at hnull
  obtain ⟨v, hv, hvn⟩ := Option.map_eq_some_iff.mp hnull
  cases hvn
  exact h.default hv

theorem inlineUnion_of_settled {o : Object} (h : o.Settled) {key : String} (hkey : key ∈ unionKeys) :
    inlineUnion (Fields.mapValues .ok o) key = .ok (Fields.mapValues .ok o) := by
  refine inlineUnion_of_not_single (fun variant hone => ?_) (fun m hm => ?_)
  · rw [Fields.get?_mapValues] at hone
    obtain ⟨v, hv, hvv⟩ := Option.map_eq_some_iff.mp hone
    cases hvv
    exact h.union key hkey _ hv
  · rw [Fields.get?_mapValues] at hm
    obtain ⟨v, -, hvm⟩ := Option.map_eq_some_iff.mp hm
    cases hvm

theorem assemble_of_settled {o : Object} (h : o.Settled) :
    assemble (Fields.mapValues .ok o) = .ok o := by
  refine assemble_eq_ok_iff.mpr ⟨o, ?_, Fields.sortBy_of_pairwise h.ordered⟩
  rw [dropNullDefault_of_settled h]
  suffices ∀ keys : List String, (∀ key ∈ keys, key ∈ unionKeys) →
      keys.foldlM inlineUnion (Fields.mapValues .ok o) = .ok (Fields.mapValues .ok o) from
    this _ fun _ hkey => hkey
  intro keys hkeys
  induction keys with
  | nil => rfl
  | cons key keys ih =>
    rw [List.foldlM_cons, inlineUnion_of_settled h (hkeys key (List.mem_cons_self ..))]
    exact ih fun k hk => hkeys k (List.mem_cons_of_mem _ hk)

theorem assembleMap_of_sorted {o : Object} (h : o.Sorted) :
    assembleMap (Fields.mapValues .ok o) = .ok o :=
  assembleMap_eq_ok_iff.mpr ⟨o, rfl, Fields.sort_of_pairwise h.ordered⟩

end Drafts

namespace Node

/-- A normal value is its own canonical form. -/
theorem Normal.canonical_eq {n : Node} {role : Role} (h : n.Normal role) :
    n.canonical role = .ok n := by
  induction n using Node.induct generalizing role with
  | scalar n ho ha =>
    cases n with
    | object => cases ho
    | array => cases ha
    | _ => exact h
  | array xs ih =>
    cases role with
    | union =>
      have hxs := normal_union_iff.mp h
      rw [canonical, canonicalItems_of_fixed 0 fun x hx => ih x hx (hxs x hx).1,
        gatherItems_eq_ok_iff.mpr rfl]
      refine congrArg (fun vs => Except.ok (Node.array vs)) (List.filter_eq_self.mpr fun x hx => ?_)
      simp [(hxs x hx).2]
    | _ => exact h
  | object fs ih =>
    have schema (hs : Object.Settled fs) (hf : NormalFields Role.ofKey fs) :
        (Drafts.assemble (canonicalFields Role.ofKey fs)).map object = .ok (object fs) := by
      rw [canonicalFields_of_fixed fun k v hv => ih k v hv (normalFields_iff.mp hf k v hv),
        Drafts.assemble_of_settled hs]
      rfl
    have map (roles : String → Role) (hs : Object.Sorted fs) (hf : NormalFields roles fs) :
        (Drafts.assembleMap (canonicalFields roles fs)).map object = .ok (object fs) := by
      rw [canonicalFields_of_fixed fun k v hv => ih k v hv (normalFields_iff.mp hf k v hv),
        Drafts.assembleMap_of_sorted hs]
      rfl
    cases role with
    | schema | schemaOrData | schemaOrFlag => exact schema h.1 h.2
    | namedSchemas | patternSchemas => exact map _ h.1 h.2
    | union => exact h.elim
    | data => rfl

end Node

/-! ### Canonical forms are normal -/

theorem Role.ofKey_of_mem_unionKeys {key : String} (h : key ∈ Drafts.unionKeys) :
    Role.ofKey key = .union := by
  simp only [Drafts.unionKeys, List.mem_cons, List.not_mem_nil, or_false] at h
  rcases h with rfl | rfl | rfl <;> rfl

theorem Role.ofKey_cases (key : String) :
    (key = "items" ∧ ofKey key = .schema .itemsSchema) ∨
    (key ∈ ["properties", "$defs"] ∧ ofKey key = .namedSchemas) ∨
    (key = "patternProperties" ∧ ofKey key = .patternSchemas) ∨
    (key = "additionalProperties" ∧ ofKey key = .schemaOrFlag) ∨
    (key ∈ Drafts.unionKeys ∧ ofKey key = .union) ∨ ofKey key = .data := by
  simp only [ofKey, Drafts.unionKeys, List.mem_cons, List.not_mem_nil, or_false]
  split_ifs <;> simp_all

theorem Role.mem_unionKeys_of_ofKey {key : String} (h : Role.ofKey key = .union) :
    key ∈ Drafts.unionKeys := by
  grind [Role.ofKey, Drafts.unionKeys]

namespace Drafts

variable {d d' : Drafts} {key : String} {done : List String}

/-- Drafts between two unions, those of `done` having had their turn. -/
structure Settling (done : List String) (d : Drafts) : Prop where
  distinct : d.Distinct
  normal : Holds (fun k v => v.Normal (Role.ofKey k)) d
  default : d.get? "default" ≠ some (.ok .null)
  union : ∀ key ∈ done, ∀ v, d.get? key ≠ some (.ok (.array [v]))

theorem descends_normal : Descends fun k v => v.Normal (Role.ofKey k) := by
  intro key hkey variant h k v hv
  rw [Role.ofKey_of_mem_unionKeys hkey] at h
  have hvariant := (Node.normal_union_iff.mp h _ (List.mem_cons_self ..)).1
  exact (Node.normal_schema_iff.mp hvariant).2 k v hv

namespace Settling

/-- The variant that is left of a union is settled. -/
theorem variant (hd : d.Settling done) (hkey : key ∈ unionKeys) {variant : Object}
    (hone : d.get? key = some (.ok (.array [.object variant]))) : variant.Settled := by
  have h := hd.normal.get? hone
  rw [Role.ofKey_of_mem_unionKeys hkey] at h
  exact (Node.normal_schema_iff.mp (Node.normal_union_iff.mp h _ (List.mem_cons_self ..)).1).1

theorem dropNullDefault (hd : d.Distinct) (hn : Holds (fun k v => v.Normal (Role.ofKey k)) d) :
    d.dropNullDefault.Settling [] := by
  refine ⟨distinct_dropNullDefault hd, hn.dropNullDefault, ?_, by simp⟩
  unfold Drafts.dropNullDefault
  split
  · rw [Fields.get?_erase]; simp
  · next h => exact h

theorem inlineUnion (hdone : ∀ k ∈ done, k ∈ unionKeys) (hkey : key ∈ unionKeys)
    (h : d.inlineUnion key = .ok d') (hd : d.Settling done) : d'.Settling (key :: done) := by
  have hdistinct := distinct_inlineUnion h hd.distinct
  have hnormal := hd.normal.inlineUnion descends_normal hkey h
  rcases inlineUnion_cases h with ⟨variant, hone, rfl⟩ | ⟨hone, -, rfl⟩
  · -- what the variant brings in is no trouble, because the variant is settled itself
    have hs := hd.variant hkey hone
    refine ⟨hdistinct, hnormal, fun hnull => ?_, fun k hk v hv => ?_⟩
    · rcases inlined_cases hs.distinct hnull with ⟨w, hw, hwv⟩ | ⟨-, hnull⟩
      · cases hwv
        exact hs.default hw
      · exact hd.default hnull
    · rcases inlined_cases hs.distinct hv with ⟨w, hw, hwv⟩ | ⟨hne, hv⟩
      · cases hwv
        exact hs.union k (List.forall_mem_cons.mpr ⟨hkey, hdone⟩ k hk) v hw
      · rcases List.mem_cons.mp hk with rfl | hk
        · exact hne rfl
        · exact hd.union k hk v hv
  · refine ⟨hdistinct, hnormal, hd.default, fun k hk v hv => ?_⟩
    rcases List.mem_cons.mp hk with rfl | hk
    · have hn := hd.normal.get? hv
      rw [Role.ofKey_of_mem_unionKeys hkey] at hn
      obtain ⟨variant, rfl⟩ :=
        (Node.normal_union_iff.mp hn v (List.mem_cons_self ..)).1.exists_object
      exact hone variant hv
    · exact hd.union k hk v hv

theorem inlineUnions {keys : List String} (hdone : ∀ k ∈ done, k ∈ unionKeys)
    (hkeys : ∀ k ∈ keys, k ∈ unionKeys) (h : keys.foldlM Drafts.inlineUnion d = .ok d')
    (hd : d.Settling done) : d'.Settling (keys.reverse ++ done) := by
  induction keys generalizing d done with
  | nil => cases h; exact hd
  | cons key keys ih =>
    rw [List.foldlM_cons, Result.bind_eq_ok_iff] at h
    obtain ⟨d₁, h₁, h⟩ := h
    have hkey := hkeys key (List.mem_cons_self ..)
    have := ih (List.forall_mem_cons.mpr ⟨hkey, hdone⟩)
      (fun k hk => hkeys k (List.mem_cons_of_mem _ hk)) h (hd.inlineUnion hdone hkey h₁)
    rwa [List.reverse_cons, List.append_assoc]

end Settling

theorem settled_of_assemble (hd : d.Distinct)
    (hn : Holds (fun k v => v.Normal (Role.ofKey k)) d) {o : Object} (h : d.assemble = .ok o) :
    o.Settled := by
  obtain ⟨entries, hm, rfl⟩ := assemble_eq_ok_iff.mp h
  have hs := (Settling.dropNullDefault hd hn).inlineUnions (by simp) (fun _ hk => hk) hm
  have hdis : Fields.Distinct entries := Fields.distinct_mapValues.mp hs.distinct
  refine ⟨hdis.sortBy _, ?_, fun hnull => ?_, fun key hkey v hv => ?_⟩
  · exact @Fields.pairwise_sortBy _ KeyOrder.precedes (fun _ _ => KeyOrder.precedes_total)
      (fun _ _ _ => KeyOrder.precedes_trans) entries
  · rw [Fields.get?_sortBy hdis] at hnull
    refine hs.default ?_
    rw [Fields.get?_mapValues, hnull]; rfl
  · rw [Fields.get?_sortBy hdis] at hv
    refine hs.union key (by simpa using hkey) v ?_
    rw [Fields.get?_mapValues, hv]; rfl

theorem sorted_of_assembleMap (hd : d.Distinct) {o : Object} (h : d.assembleMap = .ok o) :
    o.Sorted := by
  obtain ⟨entries, rfl, rfl⟩ := assembleMap_eq_ok_iff.mp h
  exact ⟨(Fields.distinct_mapValues.mp hd).sortBy _, Fields.pairwise_sort entries⟩

end Drafts

namespace Node

/-- Every canonical form is normal. -/
theorem normal_of_canonical {n m : Node} {role : Role} (hn : n.Distinct)
    (h : n.canonical role = .ok m) : m.Normal role := by
  induction n using Node.induct generalizing role m with
  | scalar n ho ha =>
    cases n with
    | object => cases ho
    | array => cases ha
    | _ => obtain rfl := eq_of_unchanged h; exact h
  | array xs ih =>
    rcases canonical_array_cases h with ⟨rfl, vs, rfl, hvs⟩ | ⟨hrole, rfl⟩
    · refine normal_union_iff.mpr fun v hv => ?_
      obtain ⟨hnull, x, hx, hxv⟩ := hvs v hv
      exact ⟨ih x hx (hn.item hx) hxv, hnull⟩
    · cases role with
      | union => exact absurd rfl hrole
      | _ => exact h
  | object fs ih =>
    have keys (roles : String → Role) : Fields.Distinct (canonicalFields roles fs) :=
      distinct_canonicalFields hn.keys
    have drafts (roles : String → Role) :
        Drafts.Holds (fun k v => v.Normal (roles k)) (canonicalFields roles fs) :=
      holds_canonicalFields fun k v m hv hvm => ih k v hv (hn.entry hv) hvm
    rcases canonical_object_cases h with ⟨hrole, o, ho, rfl⟩ | ⟨member, hrole, o, ho, rfl⟩ |
      ⟨rfl, rfl⟩
    · refine (normal_iff_of_takesSchema hrole).mpr
        ⟨Drafts.settled_of_assemble (keys _) (drafts _) ho, fun k v hv => ?_⟩
      exact Drafts.Holds.assemble Drafts.descends_normal (drafts _) ho hv
    · refine (normal_iff_of_member hrole).mpr
        ⟨Drafts.sorted_of_assembleMap (keys _) ho, fun k v hv => ?_⟩
      exact (drafts _).assembleMap ho hv
    · trivial

/-- The drafts of an object are settling when the first union has its turn. -/
theorem settling_canonicalFields {o : Object} (ho : (object o).Distinct) :
    (Drafts.dropNullDefault (canonicalFields Role.ofKey o)).Settling [] :=
  .dropNullDefault (distinct_canonicalFields ho.keys)
    (holds_canonicalFields fun _ _ _ hv hvm => normal_of_canonical (ho.entry hv) hvm)

theorem settled_of_canonical {o o' : Object} (ho : (object o).Distinct)
    (h : o.canonical = .ok o') : o'.Settled :=
  (normal_of_canonical ho (canonical_root h)).1

/-- A canonical form is its own canonical form. -/
theorem canonical_canonical {n m : Node} {role : Role} (hn : n.Distinct)
    (h : n.canonical role = .ok m) : m.canonical role = .ok m :=
  (normal_of_canonical hn h).canonical_eq

/-- Bringing a document to its canonical form a second time cannot fail and changes nothing, the
order of keys included. -/
theorem canonicalSchema_idem {n m : Node} (hn : n.Distinct) (h : n.canonicalSchema = .ok m) :
    m.canonicalSchema = .ok m := by
  obtain ⟨o, o', rfl, ho, rfl⟩ := canonicalSchema_eq_ok_iff.mp h
  have ho : canonical .schemaOrData (.object o) = .ok (.object o') :=
    Result.map_eq_ok_iff.mpr ⟨o', ho, rfl⟩
  obtain ⟨o'', ho', h⟩ := Result.map_eq_ok_iff.mp (canonical_canonical hn ho)
  cases h
  exact canonicalSchema_eq_ok_iff.mpr ⟨o', o', rfl, ho', rfl⟩

end Node

/-- The last union of this schema brings in a default, items and a union of an earlier keyword. -/
def Object.nestedUnions : Object := [
  ("oneOf", .array [.object [("type", .string "null")], .object [
    ("items", .object [("title", .string "item"), ("default", .null)]),
    ("default", .bool true),
    ("anyOf", .array [.object [("type", .string "string")], .object [("type", .string "integer")],
      .object [("type", .string "null")]])]]),
  ("default", .null),
  ("anyOf", .array [.object [("title", .string "outer")]])]

/-- The canonical form of `nestedUnions`. -/
def Object.flatUnions : Object := [
  ("title", .string "outer"),
  ("default", .bool true),
  ("items", .object [("title", .string "item")]),
  ("anyOf", .array [.object [("type", .string "string")], .object [("type", .string "integer")]])]

theorem Node.canonicalSchema_idem_nestedUnions :
    (Node.object Object.nestedUnions).Distinct ∧
      (Node.object Object.nestedUnions).canonicalSchema = .ok (.object Object.flatUnions) ∧
      (Node.object Object.flatUnions).canonicalSchema = .ok (.object Object.flatUnions) := by
  have hn : (Node.object Object.nestedUnions).Distinct := by decide
  have h : (Node.object Object.nestedUnions).canonicalSchema = .ok (.object Object.flatUnions) :=
    rfl
  exact ⟨hn, h, canonicalSchema_idem hn h⟩

end ConfigSchema
