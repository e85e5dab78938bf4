import ConfigSchema.Proofs.Schema.Keywords
import ConfigSchema.Schema.Identity

/-!
# What a stamp writes

A stamp writes at most three entries at the root of a schema (`stamp_eq_insertAll`): the address,
the dialect, and the properties, if among them there is an object `$schema`, with the address as its
default. Which entries these are does not depend on an earlier stamp (`stampEntries_stamp`), and
they have the same keys whatever the version is. So everything else stays as it is and where it is,
and of two stamps the second counts (`Node.stamp_stamp`).
-/

namespace ConfigSchema

namespace Object

variable {o property : Object} {uri version : String}

/-- The property `$schema`, where it is declared as an object. -/
def selfProperty? (o : Object) : Option Object :=
  o.properties?.bind fun properties => properties.object? "$schema"

theorem selfProperty?_eq_some (h : o.selfProperty? = some property) :
    ∃ properties : Object, Fields.get? o "properties" = some (.object properties) ∧
      o.properties = properties ∧ Fields.get? properties "$schema" = some (.object property) := by
  obtain ⟨properties, hproperties, hself⟩ := Option.bind_eq_some_iff.mp h
  refine ⟨properties, object?_eq_some_iff.mp hproperties, ?_, object?_eq_some_iff.mp hself⟩
  rw [Object.properties, hproperties]
  rfl

theorem selfProperty?_congr {o' : Object}
    (h : Fields.get? o "properties" = Fields.get? o' "properties") :
    o.selfProperty? = o'.selfProperty? := by
  simp only [selfProperty?, properties?, object?, h]

theorem properties_congr {o' : Object}
    (h : Fields.get? o "properties" = Fields.get? o' "properties") :
    o.properties = o'.properties := by
  simp only [properties, properties?, object?, h]

/-- The entries that a stamp writes at the root. -/
def stampEntries (o : Object) (uri : String) : Object :=
  ("$id", .string uri) :: ("$schema", .string dialect) ::
    match o.selfProperty? with
    | none => []
    | some property => [("properties", .object (o.properties.insert "$schema"
        (.object (property.insert "default" (.string uri)))))]

theorem stampEntries_of_none (h : o.selfProperty? = none) :
    o.stampEntries uri = [("$id", .string uri), ("$schema", .string dialect)] := by
  rw [stampEntries, h]

theorem stampEntries_of_some (h : o.selfProperty? = some property) :
    o.stampEntries uri = [("$id", .string uri), ("$schema", .string dialect),
      ("properties", .object (Fields.insert o.properties "$schema"
        (.object (Fields.insert property "default" (.string uri)))))] := by
  rw [stampEntries, h]

theorem distinct_stampEntries : Fields.Distinct (o.stampEntries uri) := by
  cases h : o.selfProperty? with
  | none =>
    rw [stampEntries_of_none h]
    exact show List.Nodup ["$id", "$schema"] by decide
  | some property =>
    rw [stampEntries_of_some h]
    exact show List.Nodup ["$id", "$schema", "properties"] by decide

/-- A stamp writes nothing under any other key. -/
theorem get?_stampEntries_of_not_mem {k : String} (h : k ∉ ["$id", "$schema", "properties"]) :
    Fields.get? (o.stampEntries uri) k = none := by
  rw [Fields.get?_eq_none_iff]
  cases hself : o.selfProperty? with
  | none =>
    rw [stampEntries_of_none hself]
    exact fun hk => h (List.mem_append_left ["properties"] hk)
  | some property =>
    rw [stampEntries_of_some hself]
    exact h

theorem stamp_eq_insertAll :
    o.stamp version = Fields.insertAll o (o.stampEntries (address version)) := by
  let base := Fields.insert (Fields.insert o "$id" (.string (address version))) "$schema"
    (.string dialect)
  have hget : Fields.get? base "properties" = Fields.get? o "properties" := by
    rw [Fields.get?_insert, if_neg (by decide), Fields.get?_insert, if_neg (by decide)]
  show stampProperty base (address version) = _
  cases h : o.selfProperty? with
  | none =>
    have hbase := (selfProperty?_congr hget).trans h
    unfold selfProperty? at hbase
    rw [stampEntries_of_none h, stampProperty, hbase]
    rfl
  | some property =>
    have hbase := (selfProperty?_congr hget).trans h
    unfold selfProperty? at hbase
    rw [stampEntries_of_some h, stampProperty, hbase, properties_congr hget]
    rfl

theorem get?_stamp (k : String) : Fields.get? (o.stamp version) k =
    (Fields.get? (o.stampEntries (address version)) k).or (Fields.get? o k) := by
  rw [stamp_eq_insertAll, Fields.get?_insertAll distinct_stampEntries]

theorem distinct_stamp (ho : (Node.object o).Distinct) :
    (Node.object (o.stamp version)).Distinct := by
  have hroot := (ho.insert "$id" (.string (address version))).insert "$schema" (.string dialect)
  rw [stamp_eq_insertAll]
  cases h : o.selfProperty? with
  | none =>
    rw [stampEntries_of_none h]
    exact hroot
  | some property =>
    obtain ⟨properties, hps, hprops, hself⟩ := selfProperty?_eq_some h
    have hproperties := ho.get? hps
    have hstamped := (hproperties.get? hself).insert "default" (.string (address version))
    rw [stampEntries_of_some h, hprops]
    exact hroot.insert "properties" (hproperties.insert "$schema" hstamped)

/-! ### A second stamp -/

theorem keys_stampEntries_eq (uri uri' : String) :
    Fields.keys (o.stampEntries uri) = Fields.keys (o.stampEntries uri') := by
  cases h : o.selfProperty? with
  | none => rw [stampEntries_of_none h, stampEntries_of_none h]; rfl
  | some property => rw [stampEntries_of_some h, stampEntries_of_some h]; rfl

/-- A stamp writes the same whether there was one before or not. -/
theorem stampEntries_stamp : (o.stamp version).stampEntries uri = o.stampEntries uri := by
  have hget := @get?_stamp o version "properties"
  cases h : o.selfProperty? with
  | none =>
    rw [stampEntries_of_none h] at hget
    rw [stampEntries_of_none h, stampEntries_of_none ((selfProperty?_congr hget).trans h)]
  | some property =>
    rw [stampEntries_of_some h] at hget
    have hstamped : (o.stamp version).properties? = some (Fields.insert o.properties "$schema"
        (.object (Fields.insert property "default" (.string (address version))))) :=
      object?_eq_some_iff.mpr hget
    have hself : (o.stamp version).selfProperty? =
        some (Fields.insert property "default" (.string (address version))) := by
      rw [selfProperty?, hstamped, Option.bind_some]
      exact object?_eq_some_iff.mpr ((Fields.get?_insert ..).trans (if_pos rfl))
    rw [stampEntries_of_some h, stampEntries_of_some hself, properties, hstamped, Option.getD_some,
      Fields.insert_insert, Fields.insert_insert]

theorem stamp_of_stamp (version version' : String) :
    (o.stamp version).stamp version' = o.stamp version' := by
  have hkeys := @keys_stampEntries_eq o (address version) (address version')
  rw [stamp_eq_insertAll, stampEntries_stamp, stamp_eq_insertAll,
    Fields.insertAll_insertAll distinct_stampEntries hkeys, stamp_eq_insertAll]

/-! ### What is changed -/

/-- `o'` is the root `o` with the address and the dialect in it. Where the property `$schema` is
declared as an object, the address is also its default. Nothing else is changed or moved. -/
inductive Stamped (uri : String) (o : Object) : Object → Prop
  | plain {o' : Object} (hself : o.selfProperty? = none)
      (h : Fields.Updates [("$id", .string uri), ("$schema", .string dialect)] o o') : Stamped uri o o'
  | declared {o' properties properties' property property' : Object}
      (hproperties : Fields.get? o "properties" = some (.object properties))
      (hself : Fields.get? properties "$schema" = some (.object property))
      (hdefault : Fields.Updates [("default", .string uri)] property property')
      (hproperty : Fields.Updates [("$schema", .object property')] properties properties')
      (h : Fields.Updates [("$id", .string uri), ("$schema", .string dialect),
        ("properties", .object properties')] o o') : Stamped uri o o'

theorem stamped_stamp : o.Stamped (address version) (o.stamp version) := by
  have h := Fields.updates_insertAll (@distinct_stampEntries o (address version)) o
  rw [← stamp_eq_insertAll] at h
  cases hself : o.selfProperty? with
  | none =>
    rw [stampEntries_of_none hself] at h
    exact .plain hself h
  | some property =>
    obtain ⟨properties, hproperties, hprops, hget⟩ := selfProperty?_eq_some hself
    rw [stampEntries_of_some hself, hprops] at h
    have hsingle (key : String) (v : Node) (fs : Object) :
        Fields.Updates [(key, v)] fs (Fields.insert fs key v) :=
      @Fields.updates_insertAll _ [(key, v)] (List.pairwise_singleton _ key) fs
    exact .declared hproperties hget (hsingle ..) (hsingle ..) h

end Object

/-- Every object can be stamped. The stamp changes the identity of the schema and nothing else, and
of two stamps the second counts: what the first has written leaves no trace. -/
theorem Node.stamp_stamp (o : Object) (version version' : String) :
    ∃ o' : Object, (Node.object o).stamp version' = .ok (.object o') ∧
      o.Stamped (address version') o' ∧
      ((Node.object o).stamp version >>= fun stamped => stamped.stamp version') =
        .ok (.object o') :=
  ⟨o.stamp version', rfl, Object.stamped_stamp,
    congrArg (fun o' => Except.ok (object o')) (Object.stamp_of_stamp version version')⟩

end ConfigSchema
