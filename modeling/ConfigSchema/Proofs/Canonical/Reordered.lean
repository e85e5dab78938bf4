import ConfigSchema.Proofs.Canonical.Normal
import Mathlib.Data.List.Forall2

/-!
# The order of keys does not matter

`x.Reordered y` says that two schema objects differ in nothing but the order of keys, in themselves
and wherever a schema or a map of schemas stands in them; data is the same in both, key order
included. Then the two have the same canonical form, or neither has one
(`canonicalSchema_reordered`).

The proof goes from the values to the drafts: drafts with the same values under the same keys
(`Drafts.Alike`) stay so when a union gives way, whatever stands around it, and the final sort
makes them equal.
-/

namespace ConfigSchema

mutual

/-- The same schema object but for the order of keys. -/
inductive Object.Reordered : Object → Object → Prop
  | intro {x y : Object} (keys : (Fields.keys x).Perm (Fields.keys y))
      (values : ∀ k v w, Fields.get? x k = some v → Fields.get? y k = some w →
        Node.ReorderedUnder k v w) : Object.Reordered x y

/-- The same value under a key of a schema object but for the order of keys. -/
inductive Node.ReorderedUnder : String → Node → Node → Prop
  | same (key : String) (v : Node) : Node.ReorderedUnder key v v
  | schema {key : String} {x y : Object} (hkey : key ∈ ["items", "additionalProperties"])
      (h : Object.Reordered x y) : Node.ReorderedUnder key (.object x) (.object y)
  | named {key : String} {x y : Object}
      (hkey : key ∈ ["properties", "$defs", "patternProperties"])
      (names : (Fields.keys x).Perm (Fields.keys y))
      (members : ∀ name v w, Fields.get? x name = some v → Fields.get? y name = some w →
        Node.ReorderedMember v w) : Node.ReorderedUnder key (.object x) (.object y)
  | union {key : String} {xs ys : List Node} (hkey : key ∈ ["anyOf", "allOf", "oneOf"])
      (members : List.Forall₂ Node.ReorderedMember xs ys) :
      Node.ReorderedUnder key (.array xs) (.array ys)

/-- The same member of a map or a union but for the order of keys. -/
inductive Node.ReorderedMember : Node → Node → Prop
  | same (v : Node) : Node.ReorderedMember v v
  | schema {x y : Object} (h : Object.Reordered x y) :
      Node.ReorderedMember (.object x) (.object y)

end

namespace Object

theorem Reordered.of_entries {x y : Object} (keys : (Fields.keys x).Perm (Fields.keys y))
    (values : ∀ e ∈ x, ∀ w, Fields.get? y e.1 = some w → Node.ReorderedUnder e.1 e.2 w) :
    x.Reordered y :=
  .intro keys fun k v w hv hw => values (k, v) (Fields.mem_of_get? hv) w hw

theorem Reordered.of_same {x y : Object} (keys : (Fields.keys x).Perm (Fields.keys y))
    (values : ∀ e ∈ x, Fields.get? y e.1 = some e.2) : x.Reordered y := by
  refine .of_entries keys fun e he w hw => ?_
  rw [values e he] at hw
  cases hw
  exact .same ..

end Object

/-! ### Drafts with the same values -/

namespace Drafts

/-- The same values under the same keys, any two misfits being alike. -/
structure Alike (d e : Drafts) : Prop where
  left : d.Distinct
  right : e.Distinct
  absent : ∀ k, d.get? k = none ↔ e.get? k = none
  present : ∀ k v, d.get? k = some (.ok v) ↔ e.get? k = some (.ok v)

namespace Alike

variable {d d' e : Drafts} {key : String}

theorem symm (h : Alike d e) : Alike e d :=
  ⟨h.right, h.left, fun k => (h.absent k).symm, fun k v => (h.present k v).symm⟩

theorem failed (h : Alike d e) {m : Misfit} (hm : d.get? key = some (.error m)) :
    ∃ m', e.get? key = some (.error m') := by
  cases he : e.get? key with
  | none => rw [(h.absent key).mpr he] at hm; cases hm
  | some r =>
    cases r with
    | error m' => exact ⟨m', rfl⟩
    | ok v => rw [(h.present key v).mpr he] at hm; cases hm

theorem erase (h : Alike d e) (key : String) :
    Alike (Fields.erase d key) (Fields.erase e key) := by
  refine ⟨h.left.erase key, h.right.erase key, fun k => ?_, fun k v => ?_⟩
  all_goals
    rw [Fields.get?_erase, Fields.get?_erase]
    split
  · exact Iff.rfl
  · exact h.absent k
  · exact Iff.rfl
  · exact h.present k v

theorem insert (h : Alike d e) (key : String) (r : Except Misfit Node) :
    Alike (Fields.insert d key r) (Fields.insert e key r) := by
  refine ⟨h.left.insert key r, h.right.insert key r, fun k => ?_, fun k v => ?_⟩
  all_goals
    rw [Fields.get?_insert, Fields.get?_insert]
    split
  · exact Iff.rfl
  · exact h.absent k
  · exact Iff.rfl
  · exact h.present k v

theorem insertAll (h : Alike d e) (more : Drafts) :
    Alike (Fields.insertAll d more) (Fields.insertAll e more) := by
  induction more generalizing d e with
  | nil => exact h
  | cons x more ih => exact ih (h.insert x.1 x.2)

theorem dropNullDefault (h : Alike d e) : Alike d.dropNullDefault e.dropNullDefault := by
  by_cases hd : d.get? "default" = some (.ok .null)
  · have he := (h.present _ _).mp hd
    simpa [Drafts.dropNullDefault, hd, he] using h.erase "default"
  · have he : e.get? "default" ≠ some (.ok .null) := fun he => hd ((h.present _ _).mpr he)
    rwa [dropNullDefault_of_ne hd, dropNullDefault_of_ne he]

/-- A union gives way on both sides or on neither. -/
theorem inlineUnion (h : Alike d e) (hd : d.inlineUnion key = .ok d') :
    ∃ e', e.inlineUnion key = .ok e' ∧ Alike d' e' := by
  rcases inlineUnion_cases hd with ⟨variant, hone, rfl⟩ | ⟨hone, herr, rfl⟩
  · exact ⟨_, inlineUnion_of_single ((h.present _ _).mp hone), (h.erase key).insertAll _⟩
  · refine ⟨e, inlineUnion_of_not_single (fun variant hv => ?_) (fun m hm => ?_), h⟩
    · exact hone variant ((h.present _ _).mpr hv)
    · obtain ⟨m', hm'⟩ := h.symm.failed hm
      exact herr m' hm'

theorem inlineUnions {keys : List String} (h : Alike d e)
    (hd : keys.foldlM Drafts.inlineUnion d = .ok d') :
    ∃ e', keys.foldlM Drafts.inlineUnion e = .ok e' ∧ Alike d' e' := by
  induction keys generalizing d e with
  | nil => cases hd; exact ⟨e, rfl, h⟩
  | cons key keys ih =>
    rw [List.foldlM_cons, Result.bind_eq_ok_iff] at hd
    obtain ⟨d₁, h₁, hd⟩ := hd
    obtain ⟨e₁, he₁, h₁⟩ := h.inlineUnion h₁
    obtain ⟨e', he', h'⟩ := ih h₁ hd
    refine ⟨e', ?_, h'⟩
    rw [List.foldlM_cons, Result.bind_eq_ok_iff]
    exact ⟨e₁, he₁, he'⟩

/-- Where every value is there on one side, so it is on the other. -/
theorem gathered {entries : Object} (h : Alike (Fields.mapValues .ok entries) e) :
    ∃ entries' : Object, e = Fields.mapValues .ok entries' ∧ Fields.Distinct entries ∧
      Fields.Distinct entries' ∧ ∀ k, Fields.get? entries k = Fields.get? entries' k := by
  obtain ⟨entries', he⟩ : ∃ entries', Fields.gather e = .ok entries' := by
    refine Fields.exists_gather_iff.mpr fun k r hr => ?_
    cases r with
    | ok v => exact ⟨v, rfl⟩
    | error m =>
      obtain ⟨m', hm'⟩ := h.symm.failed (Fields.get?_of_mem h.right hr)
      obtain ⟨v, -, hv⟩ := Fields.mem_mapValues.mp (Fields.mem_of_get? hm')
      cases hv
  obtain rfl := Fields.gather_eq_ok_iff.mp he
  refine ⟨entries', rfl, Fields.distinct_mapValues.mp h.left, Fields.distinct_mapValues.mp h.right,
    fun k => ?_⟩
  have habs := h.absent k
  have hpre := h.present k
  simp only [Fields.get?_mapValues] at habs hpre
  cases hk : Fields.get? entries k with
  | none => rw [hk] at habs; exact (Option.map_eq_none_iff.mp (habs.mp rfl)).symm
  | some v =>
    have := (hpre v).mp (by rw [hk]; rfl)
    obtain ⟨w, hw, hwv⟩ := Option.map_eq_some_iff.mp this
    cases hwv
    exact hw.symm

theorem assemble_eq_ok (h : Alike d.dropNullDefault e.dropNullDefault) {o : Object}
    (hd : d.assemble = .ok o) : e.assemble = .ok o := by
  obtain ⟨entries, hm, rfl⟩ := assemble_eq_ok_iff.mp hd
  obtain ⟨e', he', h'⟩ := h.inlineUnions hm
  obtain ⟨entries', rfl, hdis, hdis', hget⟩ := h'.gathered
  refine assemble_eq_ok_iff.mpr ⟨entries', he', ?_⟩
  exact (@Fields.sortBy_congr _ KeyOrder.precedes (fun _ _ => KeyOrder.precedes_total)
    (fun _ _ _ => KeyOrder.precedes_trans) (fun _ _ => KeyOrder.precedes_antisymm) _ _ hdis hdis'
    hget).symm

/-- It is enough that the drafts are alike once null defaults are gone. -/
theorem assemble_of_dropped (h : Alike d.dropNullDefault e.dropNullDefault) :
    Result.Alike d.assemble e.assemble :=
  fun _ => ⟨assemble_eq_ok h, assemble_eq_ok h.symm⟩

theorem assemble (h : Alike d e) : Result.Alike d.assemble e.assemble :=
  assemble_of_dropped h.dropNullDefault

theorem assembleMap_eq_ok (h : Alike d e) {o : Object} (hd : d.assembleMap = .ok o) :
    e.assembleMap = .ok o := by
  obtain ⟨entries, rfl, rfl⟩ := assembleMap_eq_ok_iff.mp hd
  obtain ⟨entries', rfl, hdis, hdis', hget⟩ := h.gathered
  exact assembleMap_eq_ok_iff.mpr ⟨entries', rfl, (Fields.sort_congr hdis hdis' hget).symm⟩

theorem assembleMap (h : Alike d e) : Result.Alike d.assembleMap e.assembleMap :=
  fun _ => ⟨h.assembleMap_eq_ok, h.symm.assembleMap_eq_ok⟩

end Alike

end Drafts

namespace Node

theorem alike_canonicalFields {roles : String → Role} {x y : Object} (hx : Fields.Distinct x)
    (hy : Fields.Distinct y) (keys : (Fields.keys x).Perm (Fields.keys y))
    (values : ∀ k v w, Fields.get? x k = some v → Fields.get? y k = some w →
      Result.Alike (canonical (roles k) v) (canonical (roles k) w)) :
    Drafts.Alike (canonicalFields roles x) (canonicalFields roles y) := by
  have absent (k : String) : Fields.get? x k = none ↔ Fields.get? y k = none := by
    rw [Fields.get?_eq_none_iff, Fields.get?_eq_none_iff, keys.mem_iff]
  refine ⟨distinct_canonicalFields hx, distinct_canonicalFields hy, fun k => ?_, fun k m => ?_⟩
  · rw [get?_canonicalFields, get?_canonicalFields, Option.map_eq_none_iff, Option.map_eq_none_iff]
    exact absent k
  · rw [get?_canonicalFields, get?_canonicalFields]
    cases hv : Fields.get? x k with
    | none => rw [(absent k).mp hv]
    | some v =>
      cases hw : Fields.get? y k with
      | none => rw [(absent k).mpr hw] at hv; cases hv
      | some w =>
        simpa using (values k v w hv hw).mapError (f := Misfit.under k) (g := Misfit.under k) m

theorem alike_gatherItems {R : Node → Node → Prop} {xs ys : List Node} (index : Nat)
    (members : List.Forall₂ R xs ys)
    (h : ∀ x ∈ xs, ∀ y ∈ ys, R x y → Result.Alike (canonical (.schema .schemaObject) x)
      (canonical (.schema .schemaObject) y)) :
    Result.Alike (gatherItems (canonicalItems index xs)) (gatherItems (canonicalItems index ys)) := by
  induction members generalizing index with
  | nil => exact .refl _
  | cons hxy _ ih =>
    refine (h _ (List.mem_cons_self ..) _ (List.mem_cons_self ..) hxy).mapError.bind fun v => ?_
    refine (ih (index + 1) fun x hx y hy => ?_).bind fun vs => .refl _
    exact h x (List.mem_cons_of_mem _ hx) y (List.mem_cons_of_mem _ hy)

/-- What is the same but for the order of keys has the same canonical form, as a member and under a
key. -/
theorem alike_canonical {n : Node} (hn : n.Distinct) :
    (∀ m role, m.Distinct → role.TakesSchema → ReorderedMember n m →
      Result.Alike (canonical role n) (canonical role m)) ∧
    ∀ m key, m.Distinct → ReorderedUnder key n m →
      Result.Alike (canonical (Role.ofKey key) n) (canonical (Role.ofKey key) m) := by
  induction n using Node.induct with
  | scalar n ho ha =>
    constructor
    · rintro m role - - (_ | _)
      · exact .refl _
      · cases ho
    · rintro m key - (_ | _ | _ | _)
      · exact .refl _
      · cases ho
      · cases ho
      · cases ha
  | array xs ih =>
    constructor
    · rintro m role - - ⟨⟩
      exact .refl _
    · intro m key hm h
      cases h with
      | same => exact .refl _
      | @union _ _ ys hkey members =>
        rw [Role.ofKey_of_mem_unionKeys hkey, canonical, canonical]
        refine (alike_gatherItems 0 members fun x hx y hy hxy => ?_).map
        exact (ih x hx (hn.item hx)).1 y _ (hm.item hy) trivial hxy
  | object fs ih =>
    have entries (roles : String → Role) {gs : Object} (hm : (object gs).Distinct)
        (keys : (Fields.keys fs).Perm (Fields.keys gs))
        (values : ∀ k v w, (k, v) ∈ fs → v.Distinct → w.Distinct → Fields.get? fs k = some v →
          Fields.get? gs k = some w → Result.Alike (canonical (roles k) v) (canonical (roles k) w)) :
        Drafts.Alike (canonicalFields roles fs) (canonicalFields roles gs) :=
      alike_canonicalFields hn.keys hm.keys keys fun k v w hv hw =>
        values k v w (Fields.mem_of_get? hv) (hn.get? hv) (hm.get? hw) hv hw
    have schema (m : Node) (role : Role) (hm : m.Distinct) (hrole : role.TakesSchema)
        (h : ReorderedMember (object fs) m) :
        Result.Alike (canonical role (object fs)) (canonical role m) := by
      cases h with
      | same => exact .refl _
      | schema h =>
        cases h with
        | intro keys values =>
          rw [canonical_of_takesSchema hrole, canonical_of_takesSchema hrole]
          refine (entries Role.ofKey hm keys fun k v w hmem hv hw hfs hgs => ?_).assemble.map
          exact (ih k v hmem hv).2 w k hw (values k v w hfs hgs)
    refine ⟨schema, fun m key hm h => ?_⟩
    cases h with
    | same => exact .refl _
    | schema hkey h => exact schema _ _ hm (Role.takesSchema_of_mem hkey) (.schema h)
    | named hkey names members =>
      obtain ⟨member, hmember, hrole⟩ := Role.exists_member_of_mem hkey
      rw [canonical_of_member hmember, canonical_of_member hmember]
      refine (entries (fun _ => member) hm names fun k v w hmem hv hw hfs hgs => ?_).assembleMap.map
      exact (ih k v hmem hv).1 w member hw hrole (members k v w hfs hgs)

end Node

/-- The canonical form does not depend on the order of keys: of two schema objects that differ in
nothing else, both have the same canonical form, key order included, or neither has one. -/
theorem Node.canonicalSchema_reordered {x y : Object} (hx : (Node.object x).Distinct)
    (hy : (Node.object y).Distinct) (h : x.Reordered y) (z : Node) :
    Node.canonicalSchema (.object x) = .ok z ↔ Node.canonicalSchema (.object y) = .ok z := by
  have alike : Result.Alike (x.canonical.map Node.object) (y.canonical.map Node.object) :=
    (Node.alike_canonical hx).1 (.object y) .schemaOrData hy trivial (.schema h)
  have document (o : Object) :
      Node.canonicalSchema (.object o) = .ok z ↔ o.canonical.map Node.object = .ok z := by
    rw [Node.canonicalSchema_eq_ok_iff, Result.map_eq_ok_iff]
    constructor
    · rintro ⟨_, o', hw, ho', rfl⟩; cases hw; exact ⟨o', ho', rfl⟩
    · rintro ⟨o', ho', rfl⟩; exact ⟨o, o', rfl, ho', rfl⟩
  rw [document, document]
  exact alike z

namespace Object

def oneOrder : Object := [
  ("properties", .object [
    ("b", .object [("type", .string "string"), ("title", .string "B")]), ("a", .bool true)]),
  ("anyOf", .array [.object [("title", .string "t"), ("minimum", .null)]])]

def otherOrder : Object := [
  ("anyOf", .array [.object [("minimum", .null), ("title", .string "t")]]),
  ("properties", .object [
    ("a", .bool true), ("b", .object [("title", .string "B"), ("type", .string "string")])])]

/-- The canonical form of `oneOrder` and of `otherOrder`. -/
def canonicalOrder : Object := [
  ("title", .string "t"),
  ("properties", .object [
    ("a", .bool true), ("b", .object [("title", .string "B"), ("type", .string "string")])]),
  ("minimum", .null)]

theorem reordered_oneOrder : oneOrder.Reordered otherOrder := by
  refine .of_entries (by decide) (List.forall_mem_cons.mpr ⟨fun w hw => ?_,
    List.forall_mem_singleton.mpr fun w hw => ?_⟩)
  · obtain rfl := Option.some.inj hw
    refine .named (by decide) (by decide) fun name v w hv hw => ?_
    rcases List.mem_cons.mp (Fields.mem_of_get? hv) with h | h
    · cases h
      obtain rfl := Option.some.inj hw
      exact .schema (.of_same (by decide) (by simp [Fields.get?_cons]))
    · cases List.mem_singleton.mp h
      obtain rfl := Option.some.inj hw
      exact .same _
  · obtain rfl := Option.some.inj hw
    refine .union (by decide) (.cons (.schema (.of_same (by decide) ?_)) .nil)
    simp [Fields.get?_cons]

end Object

theorem Node.canonicalSchema_reordered_oneOrder :
    Object.oneOrder.Reordered Object.otherOrder ∧
      Node.canonicalSchema (.object Object.oneOrder) = .ok (.object Object.canonicalOrder) ∧
      Node.canonicalSchema (.object Object.otherOrder) = .ok (.object Object.canonicalOrder) := by
  have h := Object.reordered_oneOrder
  exact ⟨h, rfl, (canonicalSchema_reordered (by decide) (by decide) h _).mp rfl⟩

end ConfigSchema
