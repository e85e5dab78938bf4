import ConfigSchema.Proofs.Canonical.Reordered
import ConfigSchema.Proofs.Canonical.SecondPass

/-!
# Added nulls do not matter

`x.Padded y` says that the schema object `y` is `x` with nulls added at any schema positions: in the
unions further variants of type null, at any index, and in the objects without a default a default
that is null, in front of any entry. Data is the same in both. Then the two have the same canonical
form, or neither has one (`canonicalAt_padded`).

An added variant is its own canonical form and is dropped before anybody counts the variants, so it
only moves the indices of the others, which nothing but a misfit mentions. An added default is
dropped before the first union has its turn.
-/

namespace ConfigSchema

/-- The schema of type null. -/
def Node.nullSchema : Node := .object [("type", .string "null")]

/-- `ys` is `xs` with schemas of type null put in. -/
inductive Node.WithNulls : List Node → List Node → Prop
  | nil : WithNulls [] []
  | cons (x : Node) {xs ys : List Node} (h : WithNulls xs ys) : WithNulls (x :: xs) (x :: ys)
  | added {xs ys : List Node} (h : WithNulls xs ys) : WithNulls xs (nullSchema :: ys)

mutual

/-- The same schema object but for added nulls. -/
inductive Object.Padded : Object → Object → Prop
  | inside {x y : Object} (h : Object.PaddedInside x y) : Object.Padded x y
  | default {x before after : Object} (habsent : Fields.get? x "default" = none)
      (h : Object.PaddedInside x (before ++ after)) :
      Object.Padded x (before ++ ("default", .null) :: after)

/-- The same keys in the same order, and the same values but for added nulls. -/
inductive Object.PaddedInside : Object → Object → Prop
  | intro {x y : Object} (keys : Fields.keys x = Fields.keys y)
      (values : ∀ k v w, Fields.get? x k = some v → Fields.get? y k = some w →
        Node.PaddedUnder k v w) : Object.PaddedInside x y

/-- The same value under a key of a schema object but for added nulls. -/
inductive Node.PaddedUnder : String → Node → Node → Prop
  | same (key : String) (v : Node) : Node.PaddedUnder key v v
  | schema {key : String} {x y : Object} (hkey : key ∈ ["items", "additionalProperties"])
      (h : Object.Padded x y) : Node.PaddedUnder key (.object x) (.object y)
  | named {key : String} {x y : Object}
      (hkey : key ∈ ["properties", "$defs", "patternProperties"])
      (names : Fields.keys x = Fields.keys y)
      (members : ∀ name v w, Fields.get? x name = some v → Fields.get? y name = some w →
        Node.PaddedMember v w) : Node.PaddedUnder key (.object x) (.object y)
  | union {key : String} {xs ys zs : List Node} (hkey : key ∈ ["anyOf", "allOf", "oneOf"])
      (members : List.Forall₂ Node.PaddedMember xs ys)
      (added : Node.WithNulls ys zs) :
      Node.PaddedUnder key (.array xs) (.array zs)

/-- The same member of a map or a union but for added nulls. -/
inductive Node.PaddedMember : Node → Node → Prop
  | same (v : Node) : Node.PaddedMember v v
  | schema {x y : Object} (h : Object.Padded x y) : Node.PaddedMember (.object x) (.object y)

end

/-! ### Added variants -/

namespace Node

/-- The variants of a union that count, in canonical form. -/
def countedVariants (index : Nat) (xs : List Node) : Except Misfit (List Node) :=
  (gatherItems (canonicalItems index xs)).map fun vs => vs.filter fun v => !v.isNullSchema

theorem canonical_union_array (xs : List Node) :
    canonical .union (array xs) = (countedVariants 0 xs).map array := by
  rw [canonical, countedVariants]
  cases gatherItems (canonicalItems 0 xs) <;> rfl

theorem countedVariants_eq_ok_iff {index : Nat} {xs kept : List Node} :
    countedVariants index xs = .ok kept ↔ ∃ vs : List Node,
      canonicalItems index xs = vs.map .ok ∧ vs.filter (fun v => !v.isNullSchema) = kept := by
  rw [countedVariants, Result.map_eq_ok_iff]
  exact exists_congr fun vs => and_congr_left fun _ => gatherItems_eq_ok_iff

theorem canonical_nullSchema : nullSchema.canonical (.schema .schemaObject) = .ok nullSchema := rfl

/-- The variants that count are those behind one that counts or does not. -/
theorem countedVariants_cons {index : Nat} {x : Node} {xs kept : List Node} :
    countedVariants index (x :: xs) = .ok kept ↔ ∃ v rest,
      x.canonical (.schema .schemaObject) = .ok v ∧ countedVariants (index + 1) xs = .ok rest ∧
        kept = if v.isNullSchema then rest else v :: rest := by
  rw [countedVariants_eq_ok_iff, canonicalItems]
  constructor
  · rintro ⟨vs, hvs, rfl⟩
    obtain ⟨v, vs, rfl, hv, hvs⟩ := List.map_eq_cons_iff.mp hvs.symm
    refine ⟨v, _, Result.mapError_eq_ok_iff.mp hv.symm,
      countedVariants_eq_ok_iff.mpr ⟨vs, hvs.symm, rfl⟩, ?_⟩
    cases hnull : v.isNullSchema <;> simp [hnull]
  · rintro ⟨v, rest, hv, hrest, rfl⟩
    obtain ⟨vs, hvs, rfl⟩ := countedVariants_eq_ok_iff.mp hrest
    refine ⟨v :: vs, ?_, ?_⟩
    · rw [hv, hvs]; rfl
    · cases hnull : v.isNullSchema <;> simp [hnull]

/-- Added variants of type null do not count, whatever the indices are. -/
theorem alike_countedVariants {ys zs : List Node} (h : WithNulls ys zs) (i j : Nat) :
    Result.Alike (countedVariants i ys) (countedVariants j zs) := by
  induction h generalizing i j with
  | nil => exact .refl _
  | cons x _ ih =>
    intro kept
    rw [countedVariants_cons, countedVariants_cons]
    refine exists_congr fun v => exists_congr fun rest => and_congr_right fun _ => ?_
    exact and_congr_left fun _ => ih (i + 1) (j + 1) rest
  | added _ ih =>
    intro kept
    rw [countedVariants_cons]
    constructor
    · intro hkept
      -- the added variant stays what it is, and is then left out
      exact ⟨_, kept, canonical_nullSchema, (ih i (j + 1) kept).mp hkept, rfl⟩
    · rintro ⟨v, rest, hv, hrest, rfl⟩
      cases hv
      exact (ih i (j + 1) rest).mpr hrest

end Node

/-! ### Added defaults -/

namespace Object

theorem dropNullDefault_of_absent {o : Object} (h : Fields.get? o "default" = none) :
    o.dropNullDefault = o := by
  rw [dropNullDefault, h]

theorem dropNullDefault_added {before after : Object}
    (h : Fields.get? (before ++ after) "default" = none) :
    dropNullDefault (before ++ ("default", .null) :: after) = before ++ after := by
  have hnot : "default" ∉ Fields.keys (before ++ after) := Fields.get?_eq_none_iff.mp h
  have hbefore : "default" ∉ Fields.keys before := fun hmem =>
    hnot (by rw [Fields.keys, List.map_append]; exact List.mem_append_left _ hmem)
  rw [dropNullDefault, Fields.get?_append_cons _ hbefore]
  exact Fields.erase_append_cons _ hnot

end Object

namespace Node

theorem alike_canonicalFields_of_keys_eq {roles : String → Role} {x y : Object}
    (hx : Fields.Distinct x) (keys : Fields.keys x = Fields.keys y)
    (values : ∀ k v w, Fields.get? x k = some v → Fields.get? y k = some w →
      Result.Alike (canonical (roles k) v) (canonical (roles k) w)) :
    Drafts.Alike (canonicalFields roles x) (canonicalFields roles y) := by
  have hy : Fields.Distinct y := by rwa [Fields.Distinct, ← keys]
  exact alike_canonicalFields hx hy (.of_eq keys) values

/-- A schema object with the same drafts but for nulls has the same form: the keys differ by the
default, until it is dropped. -/
theorem alike_canonical_of_drafts {role : Role} {x : Object} {m : Node} (hrole : role.TakesSchema)
    (drafts : ∀ y, Object.PaddedInside x y → Drafts.Alike (Object.drafts x) (Object.drafts y))
    (h : PaddedMember (object x) m) :
    Result.Alike (canonical role (object x)) (canonical role m) := by
  cases h with
  | same => exact .refl _
  | schema h =>
    rw [canonical_of_takesSchema hrole, canonical_of_takesSchema hrole]
    refine Result.Alike.map ?_
    cases h with
    | inside h => exact (drafts _ h).assemble
    | @default _ before after habsent h =>
      have habsent' : Fields.get? (before ++ after) "default" = none := by
        cases h with
        | intro keys values =>
          rw [Fields.get?_eq_none_iff] at habsent ⊢
          rwa [← keys]
      refine Drafts.Alike.assemble_of_dropped ?_
      show Drafts.Alike (Object.drafts x).dropNullDefault (Object.drafts _).dropNullDefault
      rw [← Object.drafts_dropNullDefault, ← Object.drafts_dropNullDefault,
        Object.dropNullDefault_of_absent habsent, Object.dropNullDefault_added habsent']
      exact drafts _ h

/-- What is the same but for added nulls has the same canonical form, as a member and under a
key. -/
theorem alike_canonical_padded {n : Node} (hn : n.Distinct) :
    (∀ m role, role.TakesSchema → PaddedMember n m →
      Result.Alike (canonical role n) (canonical role m)) ∧
    ∀ m key, PaddedUnder key n m →
      Result.Alike (canonical (Role.ofKey key) n) (canonical (Role.ofKey key) m) := by
  induction n using Node.induct with
  | scalar n ho ha =>
    constructor
    · rintro m role - (_ | _)
      · exact .refl _
      · cases ho
    · rintro m key (_ | _ | _ | _)
      · exact .refl _
      · cases ho
      · cases ho
      · cases ha
  | array xs ih =>
    constructor
    · rintro m role - ⟨⟩
      exact .refl _
    · intro m key h
      cases h with
      | same => exact .refl _
      | @union _ _ ys zs hkey members added =>
        rw [Role.ofKey_of_mem_unionKeys hkey, canonical_union_array, canonical_union_array]
        refine Result.Alike.map fun kept => ?_
        refine Iff.trans ?_ (alike_countedVariants added 0 0 kept)
        have hmembers := alike_gatherItems 0 members fun x hx y _ hxy =>
          (ih x hx (hn.item hx)).1 y (.schema .schemaObject) trivial hxy
        exact hmembers.map kept
  | object fs ih =>
    have drafts (gs : Object) (h : Object.PaddedInside fs gs) :
        Drafts.Alike (Object.drafts fs) (Object.drafts gs) := by
      cases h with
      | intro keys values =>
        refine alike_canonicalFields_of_keys_eq hn.keys keys fun k v w hv hw => ?_
        exact (ih k v (Fields.mem_of_get? hv) (hn.get? hv)).2 w k (values k v w hv hw)
    refine ⟨fun m role hrole h => alike_canonical_of_drafts hrole drafts h, fun m key h => ?_⟩
    cases h with
    | same => exact .refl _
    | schema hkey h =>
      exact alike_canonical_of_drafts (Role.takesSchema_of_mem hkey) drafts (.schema h)
    | named hkey names members =>
      obtain ⟨member, hmember, hrole⟩ := Role.exists_member_of_mem hkey
      rw [canonical_of_member hmember, canonical_of_member hmember]
      have hfields := @alike_canonicalFields_of_keys_eq (fun _ => member) _ _ hn.keys names
        fun k v w hv hw =>
          (ih k v (Fields.mem_of_get? hv) (hn.get? hv)).1 w member hrole (members k v w hv hw)
      exact hfields.assembleMap.map

end Node

namespace Object

/-- Nulls that are added to a schema object, as variants of its unions or as defaults, leave its
canonical form as it is, the order of keys included; and it has one with them exactly if it has one
without. -/
theorem canonicalAt_padded {x y : Object} (hx : (Node.object x).Distinct) (h : x.Padded y)
    (location : String) (z : Object) :
    x.canonicalAt location = .ok z ↔ y.canonicalAt location = .ok z := by
  have alike : Result.Alike (x.canonical.map Node.object) (y.canonical.map Node.object) :=
    (Node.alike_canonical_padded hx).1 (.object y) .schemaOrData trivial (.schema h)
  have schema (o : Object) :
      o.canonicalAt location = .ok z ↔ o.canonical.map Node.object = .ok (.object z) := by
    rw [canonicalAt_eq_ok_iff, Result.map_eq_ok_iff]
    simp
  rw [schema, schema]
  exact alike (.object z)

theorem PaddedInside.of_entries {x y : Object} (keys : Fields.keys x = Fields.keys y)
    (values : ∀ e ∈ x, ∀ w, Fields.get? y e.1 = some w → Node.PaddedUnder e.1 e.2 w) :
    x.PaddedInside y :=
  .intro keys fun k v w hv hw => values (k, v) (Fields.mem_of_get? hv) w hw

theorem PaddedInside.refl (x : Object) (hx : Fields.Distinct x) : x.PaddedInside x := by
  refine .of_entries rfl fun e he w hw => ?_
  rw [Fields.get?_of_mem hx he] at hw
  cases hw
  exact .same ..

/-- A property with a union of one variant, and a union that nothing satisfies. -/
def bare : Object := [
  ("properties", .object [
    ("port", .object [
      ("anyOf", .array [.object [("minimum", .null)]]), ("title", .string "Port")])]),
  ("oneOf", .array [])]

/-- `bare` with nulls in both unions, and defaults that are null at all three positions. -/
def paddedBare : Object := [
  ("default", .null),
  ("properties", .object [
    ("port", .object [
      ("anyOf", .array [
        Node.nullSchema, .object [("minimum", .null), ("default", .null)], Node.nullSchema]),
      ("default", .null), ("title", .string "Port")])]),
  ("oneOf", .array [Node.nullSchema])]

/-- The canonical form of `bare` and of `paddedBare`. -/
def canonicalBare : Object := [
  ("properties", .object [("port", .object [("title", .string "Port"), ("minimum", .null)])]),
  ("oneOf", .array [])]

theorem padded_bare : bare.Padded paddedBare := by
  have variant : Padded [("minimum", .null)] [("minimum", .null), ("default", .null)] :=
    @Padded.default _ [("minimum", .null)] [] rfl (.refl _ (by decide))
  have union : Node.PaddedUnder "anyOf" (.array [.object [("minimum", .null)]]) (.array [
      Node.nullSchema, .object [("minimum", .null), ("default", .null)], Node.nullSchema]) :=
    .union (by decide) (.cons (.schema variant) .nil) (.added (.cons _ (.added .nil)))
  refine @Padded.default _ [] _ rfl (.of_entries rfl (List.forall_mem_cons.mpr ⟨fun w hw => ?_,
    List.forall_mem_singleton.mpr fun w hw => ?_⟩))
  · obtain rfl := Option.some.inj hw
    refine .named (by decide) rfl fun name v w hv hw => ?_
    cases List.mem_singleton.mp (Fields.mem_of_get? hv)
    obtain rfl := Option.some.inj hw
    refine .schema (@Padded.default _ [_] [_] rfl (.of_entries rfl
      (List.forall_mem_cons.mpr ⟨fun w hw => ?_, List.forall_mem_singleton.mpr fun w hw => ?_⟩)))
    · obtain rfl := Option.some.inj hw
      exact union
    · obtain rfl := Option.some.inj hw
      exact .same ..
  · obtain rfl := Option.some.inj hw
    exact .union (by decide) .nil (.added .nil)

theorem canonicalAt_padded_bare :
    (Node.object bare).Distinct ∧ bare.Padded paddedBare ∧
      bare.canonicalAt "" = .ok canonicalBare ∧ paddedBare.canonicalAt "" = .ok canonicalBare := by
  have hx : (Node.object bare).Distinct := by decide
  exact ⟨hx, padded_bare, rfl, (canonicalAt_padded hx padded_bare "" _).mp rfl⟩

end Object

end ConfigSchema
