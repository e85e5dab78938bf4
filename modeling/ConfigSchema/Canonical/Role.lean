import ConfigSchema.Error
import ConfigSchema.Json.Pointer

/-!
# The role of a value in a schema

Where a value stands decides whether it is a schema, holds schemas, or is plain data. A schema
object gives each of its values a role by its key; a map of schemas gives all its values the same
one. `Role.unchanged` treats the values that a role does not go into: they are kept, or they have
the wrong shape.
-/

namespace ConfigSchema

/-- What a value is to the schema that it stands in. -/
inductive Role where
  /-- A schema, which must be an object. -/
  | schema (expected : Expectation)
  /-- A schema when it is an object, and data otherwise. -/
  | schemaOrData
  /-- A schema or a boolean. -/
  | schemaOrFlag
  /-- A list of schemas. -/
  | union
  /-- A map of schemas when it is an object, and data otherwise. -/
  | namedSchemas
  /-- A map of schemas, which must be an object. -/
  | patternSchemas
  /-- Nothing the canonical form looks into. -/
  | data
deriving DecidableEq, Repr

namespace Role

/-- The role of the value under a key of a schema object. -/
def ofKey (key : String) : Role :=
  if key = "items" then .schema .itemsSchema
  else if key = "properties" ∨ key = "$defs" then .namedSchemas
  else if key = "patternProperties" then .patternSchemas
  else if key = "additionalProperties" then .schemaOrFlag
  else if key = "anyOf" ∨ key = "allOf" ∨ key = "oneOf" then .union
  else .data

/-- What a role expects, for the roles that refuse some shape. -/
def expected : Role → Expectation
  | schema e => e
  | schemaOrFlag => .schemaOrFlag
  | union => .schemaArray
  | patternSchemas => .patternMap
  | schemaOrData | namedSchemas | data => .schemaObject

end Role

/-- A value of the wrong shape: where it stands below the schema, and what should stand there. -/
structure Misfit where
  path : List String
  expected : Expectation
deriving DecidableEq, Repr

namespace Misfit

/-- The same misfit, seen from one level up. -/
def under (token : String) (m : Misfit) : Misfit := ⟨token :: m.path, m.expected⟩

/-- The error for a misfit in the schema at `location`. -/
def toError (location : String) (m : Misfit) : SchemaError :=
  .malformedAt (m.path.foldl Pointer.child location) m.expected

end Misfit

/-- The value itself where its role takes any shape, or takes a boolean and this is one. -/
def Role.unchanged (role : Role) (n : Node) : Except Misfit Node :=
  match role, n with
  | .data, n | .schemaOrData, n | .namedSchemas, n => .ok n
  | .schemaOrFlag, .bool b => .ok (.bool b)
  | role, _ => .error ⟨[], role.expected⟩

end ConfigSchema
