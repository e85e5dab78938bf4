import ConfigSchema.Error
import ConfigSchema.Json.Document
import ConfigSchema.Json.Pointer
import ConfigSchema.Schema.Keywords

/-!
# Schemas and their definitions

A schema is a document whose root is an object and in which no key occurs twice; `$defs` at the root
are its definitions. The only references understood are the strings `#/$defs/<Name>` with a name
that is not empty and has no slash. A definition can be resolved when it exists and is an object.
-/

namespace ConfigSchema

structure Schema where
  root : Object
  distinct : (Node.object root).Distinct

/-- The entries of a whole document, which must be an object. -/
def Node.root : Node → Except SchemaError Object
  | .object fs => .ok fs
  | _ => .error (.malformedAt "" .schemaRoot)

namespace Schema

/-- The schema with nothing in it. -/
def empty : Schema := ⟨[], Node.distinct_nil⟩

def toNode (s : Schema) : Node := .object s.root

/-- The definitions, in the order of their declaration. -/
def definitions (s : Schema) : Object := s.root.definitions?.getD []

def definition? (s : Schema) (name : String) : Option Node := s.definitions.get? name

def definitionsPointer : String := "#/$defs/"

/-- The name in a reference to a definition. -/
def targetName? (reference : String) : Option String :=
  match definitionsPointer.toList.isPrefixOf? reference.toList with
  | none => none
  | some name => if name.isEmpty || name.contains '/' then none else some (String.ofList name)

/-- The name in a reference, which must be one to a definition. -/
def target (reference : String) : Except SchemaError String :=
  match targetName? reference with
  | some name => .ok name
  | none => .error (.unsupported reference)

/-- The definition of that name, which must exist and be an object. -/
def resolve (s : Schema) (name : String) : Except SchemaError Object :=
  match s.definition? name with
  | some (.object o) => .ok o
  | some _ => .error (.malformedAt (Pointer.child "/$defs" name) .schemaObject)
  | none => .error (.unresolved (definitionsPointer ++ name) name)

/-- The name and the definition that a reference points at. -/
def resolveReference (s : Schema) (reference : String) : Except SchemaError (String × Object) := do
  let name ← target reference
  return (name, ← s.resolve name)

end Schema

end ConfigSchema
