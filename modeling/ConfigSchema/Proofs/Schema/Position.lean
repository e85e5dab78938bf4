import ConfigSchema.Schema.Keywords
import Mathlib.Logic.Relation

/-!
# Schema positions

`o.Subschema p` says that the schema object `p` stands directly inside the schema object `o`: as the
value of a keyword, under a name in one of the maps of schemas, or as a member of a union.
`o.Position p` says that `p` is `o` or stands inside it at any depth. Objects that are mere data,
such as a default or an example, are at no position. `SubschemaAt` and `PositionAt` say in addition
on which path one gets there.
-/

namespace ConfigSchema

namespace Object

inductive Subschema (o p : Object) : Prop
  | direct {key : String} (hkey : key ∈ ["items", "additionalProperties"])
      (h : Fields.get? o key = some (.object p))
  | named {key name : String} {map : Object}
      (hkey : key ∈ ["properties", "$defs", "patternProperties"])
      (hmap : Fields.get? o key = some (.object map))
      (h : Fields.get? map name = some (.object p))
  | variant {key : String} {xs : List Node} (hkey : key ∈ ["anyOf", "allOf", "oneOf"])
      (hxs : Fields.get? o key = some (.array xs)) (h : .object p ∈ xs)

def Position : Object → Object → Prop := Relation.ReflTransGen Subschema

/-- What passes from a schema to the schemas directly inside it holds at every position. -/
theorem Position.induct {P : Object → Prop} (step : ∀ o p : Object, o.Subschema p → P o → P p)
    {o p : Object} (hp : o.Position p) (ho : P o) : P p := by
  induction hp with
  | refl => exact ho
  | tail _ h ih => exact step _ _ h ih

/-! ### Paths -/

/-- `p` stands directly inside `o`: in the entry `key`, and at the end of the path inside it. -/
inductive SubschemaAt (o : Object) (key : String) : List String → Object → Prop
  | direct {p : Object} (hkey : key ∈ ["items", "additionalProperties"])
      (h : Fields.get? o key = some (.object p)) : SubschemaAt o key [] p
  | named {name : String} {map p : Object}
      (hkey : key ∈ ["properties", "$defs", "patternProperties"])
      (hmap : Fields.get? o key = some (.object map))
      (h : Fields.get? map name = some (.object p)) : SubschemaAt o key [name] p
  | variant {xs : List Node} {i : Nat} {p : Object} (hkey : key ∈ ["anyOf", "allOf", "oneOf"])
      (hxs : Fields.get? o key = some (.array xs)) (h : xs[i]? = some (.object p)) :
      SubschemaAt o key [toString i] p

/-- `p` is `o` or stands inside it, at the end of the path. -/
inductive PositionAt : Object → List String → Object → Prop
  | root (o : Object) : PositionAt o [] o
  | inside {o p q : Object} {key : String} {path rest : List String}
      (hq : o.SubschemaAt key rest q) (hp : q.PositionAt path p) :
      PositionAt o (key :: (rest ++ path)) p

variable {o p : Object} {key : String} {path : List String}

theorem SubschemaAt.subschema (h : o.SubschemaAt key path p) : o.Subschema p := by
  cases h with
  | direct hkey h => exact .direct hkey h
  | named hkey hmap h => exact .named hkey hmap h
  | variant hkey hxs h => exact .variant hkey hxs (List.mem_of_getElem? h)

theorem PositionAt.position (h : o.PositionAt path p) : o.Position p := by
  induction h with
  | root => exact .refl
  | inside hq _ ih => exact .head hq.subschema ih

theorem SubschemaAt.sizeOf_lt (h : o.SubschemaAt key path p) : sizeOf p < sizeOf o := by
  cases h with
  | direct hkey h =>
    have hp := sizeOf_lt_of_get? h
    rw [Node.object.sizeOf_spec] at hp
    omega
  | named hkey hmap h =>
    have hmap := sizeOf_lt_of_get? hmap
    have hp := sizeOf_lt_of_get? h
    rw [Node.object.sizeOf_spec] at hmap hp
    omega
  | variant hkey hxs h =>
    have hxs := sizeOf_lt_of_get? hxs
    have hp := List.sizeOf_lt_of_mem (List.mem_of_getElem? h)
    rw [Node.array.sizeOf_spec] at hxs
    rw [Node.object.sizeOf_spec] at hp
    omega

/-- What holds of a schema when it holds of the schemas directly inside holds of every schema. -/
theorem induct_inside {P : Object → Prop}
    (step : ∀ o : Object, (∀ key path p, o.SubschemaAt key path p → P p) → P o) (o : Object) :
    P o := by
  induction hsize : sizeOf o using Nat.strongRecOn generalizing o with
  | ind size ih =>
    refine step o fun key path p hp => ih (sizeOf p) ?_ p rfl
    rw [← hsize]
    exact hp.sizeOf_lt

end Object

end ConfigSchema
