import ConfigSchema.Canonical.KeyOrder
import ConfigSchema.Canonical.Role
import ConfigSchema.Schema.Basic

/-!
# The canonical form

The canonical form of a schema object has no null default and no null variant in a union; a union
that is left with one variant gives way to the entries of that variant, which win over the object's
own; its keys stand in `KeyOrder`, and maps of schemas are sorted by name. Nested schemas are
canonical themselves.

`Node.canonical` goes down by role and turns every entry into a draft: its canonical value, or the
misfit that was found there. `Object.assemble` then puts the drafts of one object together. Drafts
are lazy about misfits because an inlined variant may overwrite an entry before anybody looks at it.
What an inlined variant brings is canonical already and is not gone through again.
-/

namespace ConfigSchema

/-- The entries of a schema object, each canonical or a misfit. -/
abbrev Drafts := Fields (Except Misfit Node)

namespace Drafts

/-- Union keywords, in the order in which they give way. -/
def unionKeys : List String := ["anyOf", "allOf", "oneOf"]

/-- Without a default that is null. -/
def dropNullDefault (drafts : Drafts) : Drafts :=
  match drafts.get? "default" with
  | some (.ok .null) => drafts.erase "default"
  | _ => drafts

/-- Replaces a union of one variant by the entries of the variant. -/
def inlineUnion (drafts : Drafts) (key : String) : Except Misfit Drafts :=
  match drafts.get? key with
  | some (.error misfit) => .error misfit
  | some (.ok (.array [.object variant])) =>
    .ok (Fields.insertAll (drafts.erase key) (Fields.mapValues .ok variant))
  | _ => .ok drafts

/-- Puts the drafts of one object together. -/
def assemble (drafts : Drafts) : Except Misfit Object := do
  let merged ← unionKeys.foldlM inlineUnion drafts.dropNullDefault
  let entries ← Fields.gather merged
  return entries.sortBy KeyOrder.precedes

/-- Puts the drafts of a map of schemas together. -/
def assembleMap (drafts : Drafts) : Except Misfit Object := Fields.gather drafts.sort

end Drafts

/-- All values, or the first misfit in order. -/
def gatherItems : List (Except Misfit Node) → Except Misfit (List Node)
  | [] => .ok []
  | r :: rest => do
    let v ← r
    let vs ← gatherItems rest
    return v :: vs

namespace Node

/-- Whether a value is a schema whose type is null. -/
def isNullSchema (n : Node) : Bool := n.object?.any Object.isNullType

mutual

/-- The canonical form of a value in its role. -/
def canonical (role : Role) : Node → Except Misfit Node
  | object fs =>
    match role with
    | .schema _ | .schemaOrData | .schemaOrFlag =>
      (Drafts.assemble (canonicalFields Role.ofKey fs)).map object
    | .namedSchemas =>
      (Drafts.assembleMap (canonicalFields (fun _ => .schemaOrData) fs)).map object
    | .patternSchemas =>
      (Drafts.assembleMap (canonicalFields (fun _ => .schema .schemaObject) fs)).map object
    | .union | .data => role.unchanged (object fs)
  | array xs =>
    match role with
    | .union =>
      (gatherItems (canonicalItems 0 xs)).map fun vs => array (vs.filter fun v => !v.isNullSchema)
    | _ => role.unchanged (array xs)
  | n => role.unchanged n

def canonicalFields (roles : String → Role) : Object → Drafts
  | [] => []
  | (k, v) :: fs =>
    (k, (canonical (roles k) v).mapError (Misfit.under k)) :: canonicalFields roles fs

/-- The canonical variants of a union, from `index` on. -/
def canonicalItems (index : Nat) : List Node → List (Except Misfit Node)
  | [] => []
  | x :: xs =>
    (canonical (.schema .schemaObject) x).mapError (Misfit.under (toString index)) ::
      canonicalItems (index + 1) xs

end

end Node

def Object.canonical (o : Object) : Except Misfit Object :=
  Drafts.assemble (Node.canonicalFields Role.ofKey o)

/-- The canonical form of the schema object at `location`. -/
def Object.canonicalAt (o : Object) (location : String) : Except SchemaError Object :=
  o.canonical.mapError (Misfit.toError location)

/-- The canonical form of a whole document, which must be an object. -/
def Node.canonicalSchema (n : Node) : Except SchemaError Node := do
  return .object (← (← n.root).canonicalAt "")

def Schema.canonical (s : Schema) : Except SchemaError Node :=
  (s.root.canonicalAt "").map .object

end ConfigSchema
