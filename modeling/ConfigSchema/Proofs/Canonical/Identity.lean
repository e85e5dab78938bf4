import ConfigSchema.Proofs.Canonical.Inlined
import ConfigSchema.Proofs.Canonical.KeyLayout
import ConfigSchema.Proofs.Schema.Stamp

/-!
# The version in the canonical form

A schema is stamped before it is brought to its canonical form, so an inlined variant may overwrite
the stamp as it overwrites any other entry. The canonical form of a stamped schema begins with
`$schema` and `$id`; what stands there, and as the default of the property `$schema`, is what the
last inlined variant with that key says, and the stamp where no variant says anything
(`identity_canonical_stamp`). A stamp changes no union, so the variants that are inlined are those
of the schema without the stamp.
-/

namespace ConfigSchema

/-! ### The first entries -/

theorem KeyOrder.exists_layout_eq {keys : List String} (hdialect : "$schema" ∈ keys)
    (haddress : "$id" ∈ keys) : ∃ rest, layout keys = "$schema" :: "$id" :: rest := by
  have hdialect : decide ("$schema" ∈ keys) = true := decide_eq_true hdialect
  have haddress : decide ("$id" ∈ keys) = true := decide_eq_true haddress
  simp only [layout, firstKeys, List.filter_cons_of_pos, hdialect, haddress]
  exact ⟨_, rfl⟩

/-- A settled object with the dialect and the address begins with them. -/
theorem Object.Settled.exists_header {o : Object} (h : o.Settled) {v w : Node}
    (hv : Fields.get? o "$schema" = some v) (hw : Fields.get? o "$id" = some w) :
    ∃ rest, o = ("$schema", v) :: ("$id", w) :: rest := by
  have hdialect : "$schema" ∈ Fields.keys o := by rw [← Fields.get?_isSome_iff, hv]; rfl
  have haddress : "$id" ∈ Fields.keys o := by rw [← Fields.get?_isSome_iff, hw]; rfl
  obtain ⟨rest, hlayout⟩ := KeyOrder.exists_layout_eq hdialect haddress
  have hkeys := (KeyOrder.eq_layout h.before).trans hlayout
  obtain ⟨⟨_, _⟩, tail, rfl, rfl, htail⟩ := List.map_eq_cons_iff.mp hkeys
  obtain ⟨⟨_, _⟩, rest, rfl, rfl, -⟩ := List.map_eq_cons_iff.mp htail
  cases hv
  cases hw
  exact ⟨rest, rfl⟩

/-! ### Maps of schemas -/

/-- In the canonical form of a map of schemas by name, each name has its canonical form. -/
theorem Node.get?_canonical_namedSchemas {ps : Object} {m : Node} (hps : Fields.Distinct ps)
    (h : canonical .namedSchemas (.object ps) = .ok m) {name : String} {v : Node}
    (hv : Fields.get? ps name = some v) :
    ∃ (qs : Object) (w : Node), m = .object qs ∧ Fields.get? qs name = some w ∧
      v.canonical .schemaOrData = .ok w := by
  obtain ⟨entries, rfl, hkeys, hmembers⟩ := @exists_entries_of_member .namedSchemas _ rfl _ _ h
  have hdis : Fields.Distinct entries := by rwa [Fields.Distinct, hkeys]
  obtain ⟨w, hw, hvw⟩ := hmembers name v hv
  refine ⟨entries.sort, w, rfl, ?_, hvw⟩
  rw [Fields.sort_eq_sortBy, Fields.get?_sortBy hdis, hw]

/-! ### The stamp -/

namespace Object

/-- The default of the property `$schema`. -/
def selfDefault? (o : Object) : Option Node :=
  o.selfProperty?.bind fun property => Fields.get? property "default"

variable {o o' property : Object} {version : String}

theorem get?_stamp_dialect : Fields.get? (o.stamp version) "$schema" = some (.string dialect) := by
  rw [get?_stamp]
  rfl

theorem get?_stamp_address :
    Fields.get? (o.stamp version) "$id" = some (.string (address version)) := by
  rw [get?_stamp]
  rfl

theorem get?_stamp_properties (h : o.selfProperty? = some property) :
    Fields.get? (o.stamp version) "properties" = some (.object (Fields.insert o.properties "$schema"
      (.object (Fields.insert property "default" (.string (address version)))))) := by
  rw [get?_stamp, stampEntries_of_some h]
  rfl

/-- A stamp has no part in what is inlined. -/
theorem inlined?_stamp (key : String) : (o.stamp version).inlined? key = o.inlined? key := by
  refine inlined?_congr (fun k hk => ?_) key
  have hnone : Fields.get? (o.stampEntries (address version)) k = none := by
    simp only [Drafts.unionKeys, List.mem_cons, List.not_mem_nil, or_false] at hk
    rcases hk with rfl | rfl | rfl <;> exact get?_stampEntries_of_not_mem (by decide)
  rw [get?_stamp, hnone, Option.none_or]

/-! ### The canonical form of a stamped schema -/

section

variable (ho : (Node.object o).Distinct) (h : (o.stamp version).canonical = .ok o')

include ho h

theorem exists_header_canonical_stamp : ∃ rest : Object, o' =
    ("$schema", (o.inlined? "$schema").getD (.string dialect)) ::
      ("$id", (o.inlined? "$id").getD (.string (address version))) :: rest := by
  have hs := @distinct_stamp o version ho
  have hdialect := get?_canonical_of_data hs h rfl (by simp) get?_stamp_dialect
  have haddress := get?_canonical_of_data hs h rfl (by simp) get?_stamp_address
  rw [inlined?_stamp] at hdialect haddress
  exact (Node.settled_of_canonical hs h).exists_header hdialect haddress

/-- Where no variant replaces the properties, the stamp of the property `$schema` meets the variants
that are inlined into the property. -/
theorem selfDefault?_canonical_stamp (hself : o.selfProperty? = some property)
    (hin : o.inlined? "properties" = none) : o'.selfDefault? =
      some ((property.inlined? "default").getD (.string (address version))) := by
  have hs := @distinct_stamp o version ho
  have hps := @get?_stamp_properties o property version hself
  have hpsDistinct := hs.get? hps
  -- down to the map of properties, and in it to the stamped property
  obtain ⟨m, hm, hom⟩ := get?_canonical_of_not_inlined hs h (by decide) (by decide)
    ((inlined?_stamp "properties").trans hin) hps
  obtain ⟨qs, w, rfl, hqs, hw⟩ := Node.get?_canonical_namedSchemas hpsDistinct.keys hm
    ((Fields.get?_insert ..).trans (if_pos rfl))
  obtain ⟨q, hq, rfl⟩ := Result.map_eq_ok_iff.mp hw
  have hproperty := hpsDistinct.get? ((Fields.get?_insert ..).trans (if_pos rfl))
  have hdefault := get?_canonical_of_data hproperty hq rfl (by simp)
    ((Fields.get?_insert ..).trans (if_pos rfl))
  rw [inlined?_insert (by decide)] at hdefault
  rw [← hdefault]
  simp only [selfDefault?, selfProperty?, properties?, object?, hom, hqs, Option.bind_some,
    Node.object?]

/-- Where a variant replaces the properties, what it says about the property `$schema` counts. -/
theorem selfDefault?_canonical_stamp_of_inlined {properties : Node}
    (hin : o.inlined? "properties" = some properties) :
    o'.selfDefault? = selfDefault? [("properties", properties)] := by
  have hs := @distinct_stamp o version ho
  have hom := get?_canonical_of_inlined hs h (by decide) (by decide)
    ((inlined?_stamp "properties").trans hin)
  have hsingle : Fields.get? [("properties", properties)] "properties" = some properties := rfl
  simp only [selfDefault?, selfProperty?, properties?, object?, hom, hsingle]

end

end Object

namespace Schema

variable {s : Schema} {m n : Node} {version : String}

/-- The canonical form of a stamped schema begins with `$schema` and `$id`. There, and as the
default of a property `$schema` that is declared as an object, it has the stamp, unless an inlined
variant brings in something else. -/
theorem identity_canonical_stamp (hm : s.toNode.stamp version = .ok m)
    (hn : m.canonicalSchema = .ok n) :
    ∃ o rest : Object, n = .object o ∧
      o = ("$schema", (s.root.inlined? "$schema").getD (.string dialect)) ::
        ("$id", (s.root.inlined? "$id").getD (.string (address version))) :: rest ∧
      ∀ property, s.root.selfProperty? = some property → o.selfDefault? =
        match s.root.inlined? "properties" with
        | none => some ((property.inlined? "default").getD (.string (address version)))
        | some properties => Object.selfDefault? [("properties", properties)] := by
  cases hm
  obtain ⟨stamped, o, hstamped, ho, rfl⟩ := Node.canonicalSchema_eq_ok_iff.mp hn
  cases hstamped
  obtain ⟨rest, hrest⟩ := Object.exists_header_canonical_stamp s.distinct ho
  refine ⟨o, rest, rfl, hrest, fun property hself => ?_⟩
  cases hin : s.root.inlined? "properties" with
  | none => exact Object.selfDefault?_canonical_stamp s.distinct ho hself hin
  | some properties => exact Object.selfDefault?_canonical_stamp_of_inlined s.distinct ho hin

/-- A schema whose address and whose property `$schema` have an optional part. -/
def rebased : Schema := ⟨[
  ("properties", .object [("$schema", .object [("anyOf", .array [
    .object [("type", .string "string"), ("default", .string "old.json")],
    .object [("type", .string "null")]])])]),
  ("oneOf", .array [
    .object [("$id", .string "base.json")],
    .object [("type", .string "null")]])], by decide⟩

/-- The canonical form of `rebased` once it is stamped: of the stamp only the dialect is left. -/
def rebasedCanonical : Object := [
  ("$schema", .string dialect),
  ("$id", .string "base.json"),
  ("properties", .object [("$schema", .object [
    ("type", .string "string"), ("default", .string "old.json")])])]

theorem identity_canonical_stamp_rebased :
    (rebased.toNode.stamp "1.0" >>= Node.canonicalSchema) = .ok (.object rebasedCanonical) ∧
      rebased.root.inlined? "$id" = some (.string "base.json") ∧
      ∃ o rest : Object, Node.object rebasedCanonical = .object o ∧
        o = ("$schema", .string dialect) ::
          ("$id", .string "base.json") :: rest ∧
        ∀ property, rebased.root.selfProperty? = some property →
          o.selfDefault? = some ((property.inlined? "default").getD (.string (address "1.0"))) := by
  have hm : rebased.toNode.stamp "1.0" = .ok (.object (rebased.root.stamp "1.0")) := rfl
  exact ⟨rfl, rfl, identity_canonical_stamp hm rfl⟩

/-- A stamp need not survive in the canonical form. -/
theorem not_identity_canonical_stamp :
    ¬ ∀ (s : Schema) (version : String) (m n : Node), s.toNode.stamp version = .ok m →
      m.canonicalSchema = .ok n →
      ∃ o rest : Object, n = .object o ∧
        o = ("$schema", .string dialect) :: ("$id", .string (address version)) :: rest ∧
        ∀ property, s.root.selfProperty? = some property →
          o.selfDefault? = some (.string (address version)) := by
  intro h
  have hn : (Node.object (rebased.root.stamp "1.0")).canonicalSchema =
      .ok (.object rebasedCanonical) := rfl
  obtain ⟨o, rest, ho, hrest, -⟩ := h rebased "1.0" _ _ rfl hn
  cases ho
  have hid : some (Node.string "base.json") =
      some (.string (address "1.0")) := congrArg (fun o : Object => Fields.get? o "$id") hrest
  simp only [Option.some.injEq, Node.string.injEq] at hid
  exact absurd hid (by decide)

end Schema

end ConfigSchema
