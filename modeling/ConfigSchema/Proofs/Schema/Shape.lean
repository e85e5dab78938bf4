import ConfigSchema.Canonical.Form
import ConfigSchema.Proofs.Json.Pointer
import ConfigSchema.Proofs.Schema.Position

/-!
# Values of the wrong shape

A schema object asks for a shape of some of its values: a union is a list of objects, `items` an
object, `patternProperties` a map of objects, `additionalProperties` an object or a boolean.
`o.Misshapen key path v expected` names an entry of `o` and a value `v` on a path in it that is
of none of those shapes. Following the path finds the value, whatever the keys on the way are.
-/

namespace ConfigSchema

namespace Object

/-- In the entry `key` of `o`, at the end of the path inside it, `v` stands where something else is
expected. -/
inductive Misshapen (o : Object) : String → List String → Node → Expectation → Prop
  | union {key : String} {v : Node} (hkey : key ∈ Drafts.unionKeys)
      (hv : Fields.get? o key = some v) (h : v.array? = none) : Misshapen o key [] v .schemaArray
  | variant {key : String} {xs : List Node} {i : Nat} {v : Node} (hkey : key ∈ Drafts.unionKeys)
      (hxs : Fields.get? o key = some (.array xs)) (hv : xs[i]? = some v) (h : v.object? = none) :
      Misshapen o key [toString i] v .schemaObject
  | items {v : Node} (hv : Fields.get? o "items" = some v) (h : v.object? = none) :
      Misshapen o "items" [] v .itemsSchema
  | patterns {v : Node} (hv : Fields.get? o "patternProperties" = some v) (h : v.object? = none) :
      Misshapen o "patternProperties" [] v .patternMap
  | pattern {name : String} {map : Object} {v : Node}
      (hmap : Fields.get? o "patternProperties" = some (.object map))
      (hv : Fields.get? map name = some v) (h : v.object? = none) :
      Misshapen o "patternProperties" [name] v .schemaObject
  | additional {v : Node} (hv : Fields.get? o "additionalProperties" = some v)
      (h : v.object? = none) (hflag : ∀ b, v ≠ .bool b) :
      Misshapen o "additionalProperties" [] v .schemaOrFlag

variable {o p : Object} {key : String} {path : List String}

theorem follow_of_get? {v : Node} (hv : Fields.get? o key = some v) (path : List String) :
    (Node.object o).follow (key :: path) = v.follow path := by
  show (Fields.get? o key).bind _ = _
  rw [hv]
  rfl

theorem follow_item {xs : List Node} {i : Nat} {v : Node} (hv : xs[i]? = some v) :
    (Node.array xs).follow [toString i] = some v := by
  show ((Node.array xs).child? (toString i)).bind _ = _
  rw [Node.child?_index, hv]
  rfl

theorem Misshapen.follow {v : Node} {expected : Expectation}
    (h : o.Misshapen key path v expected) : (Node.object o).follow (key :: path) = some v := by
  cases h with
  | union hkey hv h => exact follow_of_get? hv []
  | variant hkey hxs hv h => rw [follow_of_get? hxs, follow_item hv]
  | items hv h => exact follow_of_get? hv []
  | patterns hv h => exact follow_of_get? hv []
  | pattern hmap hv h => rw [follow_of_get? hmap, follow_of_get? hv]; rfl
  | additional hv h hflag => exact follow_of_get? hv []

theorem SubschemaAt.follow (h : o.SubschemaAt key path p) :
    (Node.object o).follow (key :: path) = some (.object p) := by
  cases h with
  | direct hkey h => exact follow_of_get? h []
  | named hkey hmap h => rw [follow_of_get? hmap, follow_of_get? h]; rfl
  | variant hkey hxs h => rw [follow_of_get? hxs, follow_item h]

theorem PositionAt.follow (h : o.PositionAt path p) :
    (Node.object o).follow path = some (.object p) := by
  induction h with
  | root => rfl
  | inside hq _ ih =>
    rw [← List.cons_append, Node.follow_append, hq.follow]
    exact ih

end Object

end ConfigSchema
