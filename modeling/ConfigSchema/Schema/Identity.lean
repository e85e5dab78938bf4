import ConfigSchema.Schema.Basic

/-!
# Versions

A published schema carries its address, which contains the version, in `$id`, and its dialect in
`$schema`. When the schema declares a property `$schema` of its own as an object, the address is
also the default of that property.
-/

namespace ConfigSchema

/-- The dialect of published schemas. -/
def dialect : String := "http://json-schema.org/draft-07/schema#"

def address (version : String) : String :=
  "https://pixi.sh/v" ++ version ++ "/schema/manifest/schema.json"

namespace Object

/-- Sets the default of the property `$schema`, if that is declared as an object. -/
def stampProperty (o : Object) (uri : String) : Object :=
  match o.properties?.bind fun properties => properties.object? "$schema" with
  | none => o
  | some property =>
    let stamped := property.insert "default" (.string uri)
    o.insert "properties" (.object (o.properties.insert "$schema" (.object stamped)))

/-- Stamps a version on the root of a schema. -/
def stamp (o : Object) (version : String) : Object :=
  let uri := address version
  stampProperty ((o.insert "$id" (.string uri)).insert "$schema" (.string dialect)) uri

end Object

/-- Stamps a version on a schema, which must be an object. -/
def Node.stamp (n : Node) (version : String) : Except SchemaError Node :=
  match n with
  | .object o => .ok (.object (Object.stamp o version))
  | _ => .error (.malformedAt "" .schemaRoot)

end ConfigSchema
