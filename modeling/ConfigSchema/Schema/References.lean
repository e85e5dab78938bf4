import ConfigSchema.Schema.Basic

/-!
# References

Which definitions a schema uses, and whether its references can be followed. Both walks go through
every object nested in the schema, in document order and an object's own `$ref` first, and never
from a reference into its definition, so they end on recursive definitions too.
-/

namespace ConfigSchema

mutual

/-- The definitions that references in a value name, in document order. -/
def Node.targets : Node → List String
  | .object fs => ((Object.reference? fs).bind Schema.targetName?).toList ++ targetsFields fs
  | .array xs => targetsItems xs
  | _ => []

def Node.targetsItems : List Node → List String
  | [] => []
  | x :: xs => x.targets ++ targetsItems xs

def Node.targetsFields : Object → List String
  | [] => []
  | (_, v) :: fs => v.targets ++ targetsFields fs

end

/-- An object's own reference must be a text that names one of the definitions. -/
def Object.checkReference (definitions : Object) (location : String) (o : Object) :
    Except SchemaError Unit :=
  match o.get? "$ref" with
  | none => .ok ()
  | some (.string reference) => do
    let name ← Schema.target reference
    if definitions.contains name then return () else throw (.unresolved reference name)
  | some _ => .error (.malformedAt (Pointer.child location "$ref") .text)

mutual

/-- Checks every reference in the value at `location`. -/
def Node.checkReferences (definitions : Object) (location : String) :
    Node → Except SchemaError Unit
  | .object fs => do
    Object.checkReference definitions location fs
    checkFields definitions location fs
  | .array xs => checkItems definitions location 0 xs
  | _ => .ok ()

def Node.checkItems (definitions : Object) (location : String) (index : Nat) :
    List Node → Except SchemaError Unit
  | [] => .ok ()
  | x :: xs => do
    x.checkReferences definitions (Pointer.child location (toString index))
    checkItems definitions location (index + 1) xs

def Node.checkFields (definitions : Object) (location : String) : Object → Except SchemaError Unit
  | [] => .ok ()
  | (k, v) :: fs => do
    v.checkReferences definitions (Pointer.child location k)
    checkFields definitions location fs

end

namespace Schema

/-- The set of definitions that some reference names, those in definitions included. -/
def usedDefinitions (s : Schema) : List String := Names.ofList s.toNode.targets

/-- Fails on the first reference that does not name a definition. -/
def checkReferences (s : Schema) : Except SchemaError Unit :=
  s.toNode.checkReferences s.definitions ""

/-- A root property's own reference and those of its `anyOf` variants. -/
def propertyTargets (property : Node) : List String :=
  match property with
  | .object o =>
    let variants := (Object.variants o "anyOf").filterMap Object.reference?
    ((Object.reference? o).toList ++ variants).filterMap targetName?
  | _ => []

/-- Each root property with each definition that it points at, in property order. -/
def topLevelReferences (s : Schema) : List (String × String) :=
  s.root.properties.flatMap fun e => (propertyTargets e.2).map (e.1, ·)

def topLevelDefinitions (s : Schema) : List String := Names.ofList (s.topLevelReferences.map (·.2))

end Schema

end ConfigSchema
