import ConfigSchema.Proofs.Canonical.Collapse

/-!
# The canonical form without a collapse

Where no union collapses, the canonical form is made key by key and loses nothing: it has the keys
of the object but for a null default, and what stands under a key depends on what stood there and on
nothing else (`entries_canonicalAt_of_no_collapse`). `v.FormedUnder key w` says what becomes of the
value `v` under `key`: the schemas in it are brought to their canonical form, a map keeps its names,
a union keeps the order of its variants and loses those of type null, and all other values are kept.
-/

namespace ConfigSchema

namespace Node

/-- What becomes of a member of a map of schemas: an object is brought to its canonical form, and
any other value stays as it is. -/
inductive FormedMember : Node → Node → Prop
  | schema {p q : Object} (h : p.canonical = .ok q) : FormedMember (.object p) (.object q)
  | data {v : Node} (h : v.object? = none) : FormedMember v v

/-- What becomes of a value under a key of a schema object in which no union collapses. -/
inductive FormedUnder : String → Node → Node → Prop
  | schema {key : String} {p q : Object} (hkey : key ∈ ["items", "additionalProperties"])
      (h : p.canonical = .ok q) : FormedUnder key (.object p) (.object q)
  | flag (b : Bool) : FormedUnder "additionalProperties" (.bool b) (.bool b)
  | named {key : String} {map formed : Object}
      (hkey : key ∈ ["properties", "$defs", "patternProperties"])
      (names : (Fields.keys formed).Perm (Fields.keys map))
      (members : ∀ name v, Fields.get? map name = some v →
        ∃ w, Fields.get? formed name = some w ∧ FormedMember v w) :
      FormedUnder key (.object map) (.object formed)
  | noMap {key : String} {v : Node} (hkey : key ∈ ["properties", "$defs"]) (h : v.object? = none) :
      FormedUnder key v v
  | union {key : String} {variants formed : List Object} (hkey : key ∈ ["anyOf", "allOf", "oneOf"])
      (h : List.Forall₂ (fun p q => Object.canonical p = .ok q) variants formed) :
      FormedUnder key (.array (variants.map .object))
        (.array ((formed.filter fun q => !Object.isNullType q).map .object))
  | data {key : String} {v : Node} (hkey : key ∉ ["items", "additionalProperties", "properties",
      "$defs", "patternProperties", "anyOf", "allOf", "oneOf"]) : FormedUnder key v v

variable {key : String} {v w : Node}

theorem canonical_schema_eq_ok {expected : Expectation} (h : v.canonical (.schema expected) = .ok w) :
    ∃ p q : Object, v = .object p ∧ w = .object q ∧ p.canonical = .ok q := by
  cases v with
  | object p =>
    obtain ⟨q, hq, rfl⟩ := Result.map_eq_ok_iff.mp h
    exact ⟨p, q, rfl, rfl, hq⟩
  | _ => cases h

theorem exists_map_object_of_forall₂ {expected : Expectation} {xs vs : List Node}
    (h : List.Forall₂ (fun x v => x.canonical (.schema expected) = .ok v) xs vs) :
    ∃ variants formed : List Object, xs = variants.map .object ∧ vs = formed.map .object ∧
      List.Forall₂ (fun p q => Object.canonical p = .ok q) variants formed := by
  induction h with
  | nil => exact ⟨[], [], rfl, rfl, .nil⟩
  | cons hx _ ih =>
    obtain ⟨p, q, rfl, rfl, hpq⟩ := canonical_schema_eq_ok hx
    obtain ⟨variants, formed, rfl, rfl, hrest⟩ := ih
    exact ⟨p :: variants, q :: formed, rfl, rfl, .cons hpq hrest⟩

namespace FormedMember

theorem of_schema {expected : Expectation} (h : v.canonical (.schema expected) = .ok w) :
    FormedMember v w := by
  obtain ⟨p, q, rfl, rfl, hpq⟩ := canonical_schema_eq_ok h
  exact .schema hpq

theorem of_schemaOrData (h : v.canonical .schemaOrData = .ok w) : FormedMember v w := by
  cases v with
  | object p =>
    obtain ⟨q, hq, rfl⟩ := Result.map_eq_ok_iff.mp h
    exact .schema hq
  | _ => cases h; exact .data rfl

end FormedMember

namespace FormedUnder

theorem of_member {role member : Role} (hmember : role.member? = some member)
    (hkey : key ∈ ["properties", "$defs", "patternProperties"]) {map : Object}
    (hmap : Fields.Distinct map) (h : (object map).canonical role = .ok w) :
    FormedUnder key (.object map) w := by
  obtain ⟨entries, rfl, hkeys, hmembers⟩ := exists_entries_of_member hmember h
  have hdis : Fields.Distinct entries := by rwa [Fields.Distinct, hkeys]
  refine .named hkey ?_ fun name v hv => ?_
  · rw [← hkeys]
    exact Fields.keys_sortBy_perm entries
  · obtain ⟨w, hw, hvw⟩ := hmembers name v hv
    refine ⟨w, (Fields.get?_sortBy hdis name).trans hw, ?_⟩
    cases role with
    | namedSchemas => cases hmember; exact .of_schemaOrData hvw
    | patternSchemas => cases hmember; exact .of_schema hvw
    | _ => cases hmember

theorem of_union (hkey : key ∈ ["anyOf", "allOf", "oneOf"]) (h : v.canonical .union = .ok w) :
    FormedUnder key v w := by
  cases v with
  | array xs =>
    obtain ⟨vs, hvs, rfl⟩ := canonical_union_eq_ok_iff.mp h
    obtain ⟨variants, formed, rfl, rfl, hformed⟩ := exists_map_object_of_forall₂ hvs
    rw [List.filter_map]
    exact .union hkey hformed
  | _ => cases h

theorem of_canonical (hv : v.Distinct) (h : v.canonical (Role.ofKey key) = .ok w) :
    FormedUnder key v w := by
  rcases Role.ofKey_cases key with ⟨rfl, hrole⟩ | ⟨hkey, hrole⟩ | ⟨rfl, hrole⟩ | ⟨rfl, hrole⟩ |
    ⟨hkey, hrole⟩ | hrole <;> rw [hrole] at h
  · obtain ⟨p, q, rfl, rfl, hpq⟩ := canonical_schema_eq_ok h
    exact .schema (by decide) hpq
  · cases v with
    | object map => exact .of_member rfl (List.mem_append_left ["patternProperties"] hkey) hv.keys h
    | _ => cases h; exact .noMap hkey rfl
  · cases v with
    | object map => exact .of_member rfl (by decide) hv.keys h
    | _ => cases h
  · cases v with
    | object p =>
      obtain ⟨q, hq, rfl⟩ := Result.map_eq_ok_iff.mp h
      exact .schema (by decide) hq
    | bool b => cases h; exact .flag b
    | _ => cases h
  · exact .of_union hkey h
  · rw [canonical_data] at h
    cases h
    refine .data fun hkey => ?_
    revert hrole
    revert key
    decide

end FormedUnder

end Node

namespace Object

variable {o o' : Object} {k : String}

theorem collapses_eq_nil (ho : (Node.object o).Distinct) (h : o.canonical = .ok o')
    (hnone : ∀ key ∈ Drafts.unionKeys, ∀ v variant, Fields.get? o key = some v →
      v.canonical .union ≠ .ok (.array [variant])) : o.collapses = [] := by
  refine List.eq_nil_iff_forall_not_mem.mpr fun ⟨key, variant⟩ hc => ?_
  obtain ⟨xs, hxs, hcanonical⟩ := exists_union_of_mem_collapses ho h hc
  have hkey := Drafts.mem_of_mem_keys_collapses (Fields.mem_keys_iff.mpr ⟨_, hc⟩)
  exact hnone key hkey _ _ hxs hcanonical

theorem distinct_dropNullDefault (ho : (Node.object o).Distinct) :
    (Node.object o.dropNullDefault).Distinct := by
  unfold dropNullDefault
  split
  · exact ho.erase _
  · exact ho

/-- Where no union is left with one variant, the canonical form has the keys of the object but for a
null default, and under each of them what becomes of the value there. -/
theorem entries_canonicalAt_of_no_collapse {location : String} (ho : (Node.object o).Distinct)
    (h : o.canonicalAt location = .ok o')
    (hnone : ∀ key ∈ Drafts.unionKeys, ∀ v variant, Fields.get? o key = some v →
      v.canonical .union ≠ .ok (.array [variant])) :
    (Fields.keys o').Perm (Fields.keys o.dropNullDefault) ∧
    ∀ k v, Fields.get? o.dropNullDefault k = some v →
      ∃ w, Fields.get? o' k = some w ∧ v.FormedUnder k w := by
  have h := canonicalAt_eq_ok_iff.mp h
  have hnil := collapses_eq_nil ho h hnone
  have hdropped := distinct_dropNullDefault ho
  constructor
  · have hdistinct := (Node.settled_of_canonical ho h).distinct
    refine (List.perm_ext_iff_of_nodup hdistinct hdropped.keys).mpr fun k => ?_
    rw [mem_keys_canonical_iff ho h, hnil]
    simp [Fields.keys_nil]
  · intro k v hv
    have hinlined : o.inlined? k = none := by
      simp [← Option.not_isSome_iff_eq_none, inlined?_isSome_iff, hnil]
    have hget := map_get?_canonical ho h k
    rw [hinlined, hnil, hv] at hget
    obtain ⟨w, hw, hvw⟩ := Option.map_eq_some_iff.mp hget
    exact ⟨w, hw, .of_canonical (hdropped.get? hv) (Result.mapError_eq_ok_iff.mp hvw.symm)⟩

/-- A value in every role, and no union that collapses but the one in `items`. -/
def everyRole : Object := [
  ("zone", .object [("b", .null), ("a", .array [])]),
  ("properties", .object [
    ("wide", .object [("title", .string "w"), ("$ref", .string "#/$defs/W"), ("default", .null)]),
    ("free", .bool true)]),
  ("default", .null),
  ("$defs", .string "none"),
  ("additionalProperties", .bool false),
  ("patternProperties", .object [("^x", .object [])]),
  ("anyOf", .array [.object [("type", .string "string"), ("title", .string "s")],
    .object [("type", .string "null")], .object [("type", .string "integer")]]),
  ("items", .object [("allOf", .array [.object [("type", .string "number")]])])]

/-- The canonical form of `everyRole`. -/
def everyRoleFormed : Object := [
  ("additionalProperties", .bool false),
  ("items", .object [("type", .string "number")]),
  ("properties", .object [
    ("free", .bool true),
    ("wide", .object [("$ref", .string "#/$defs/W"), ("title", .string "w")])]),
  ("patternProperties", .object [("^x", .object [])]),
  ("anyOf", .array [.object [("title", .string "s"), ("type", .string "string")],
    .object [("type", .string "integer")]]),
  ("zone", .object [("b", .null), ("a", .array [])]),
  ("$defs", .string "none")]

theorem entries_canonicalAt_of_no_collapse_everyRole :
    (Node.object everyRole).Distinct ∧ everyRole.canonicalAt "" = .ok everyRoleFormed ∧
      (∀ key ∈ Drafts.unionKeys, ∀ v variant, Fields.get? everyRole key = some v →
        v.canonical .union ≠ .ok (.array [variant])) ∧
      (Fields.keys everyRoleFormed).Perm (Fields.keys everyRole.dropNullDefault) ∧
      ∀ k v, Fields.get? everyRole.dropNullDefault k = some v →
        ∃ w, Fields.get? everyRoleFormed k = some w ∧ v.FormedUnder k w := by
  have ho : (Node.object everyRole).Distinct := by decide
  have h : everyRole.canonicalAt "" = .ok everyRoleFormed := rfl
  have hnone : ∀ key ∈ Drafts.unionKeys, ∀ v variant, Fields.get? everyRole key = some v →
      v.canonical .union ≠ .ok (.array [variant]) := by
    intro key hkey v variant hv hone
    simp only [Drafts.unionKeys, List.mem_cons, List.not_mem_nil, or_false] at hkey
    rcases hkey with rfl | rfl | rfl <;> cases hv
    obtain ⟨a, b, htwo⟩ : ∃ a b, Node.canonical .union (.array [
        .object [("type", .string "string"), ("title", .string "s")],
        .object [("type", .string "null")], .object [("type", .string "integer")]]) =
          .ok (.array [a, b]) := ⟨_, _, rfl⟩
    rw [htwo] at hone
    cases hone
  exact ⟨ho, h, hnone, entries_canonicalAt_of_no_collapse ho h hnone⟩

end Object

end ConfigSchema
