import ConfigSchema.Docs.Label
import ConfigSchema.Docs.Snippet

/-!
# Sections

A definition's section lists the fields of the definition. A field that refers to a definition with
properties is not listed itself: the fields of that definition stand in its place, under its path.
The definitions that may still be opened so on the current path are `closed`; a reference to one
that is open, or that has no properties, is listed as a field with a link. Each opening takes a
definition out of `closed`, so the recursion ends on recursive definitions.
-/

namespace ConfigSchema

/-- What the page says about a field. -/
structure FieldSection where
  parent : List String
  key : String
  label : Label
  required : Bool
  default? : Option Node
  description? : Option String
  snippets : List Snippet

namespace FieldSection

def path (f : FieldSection) : String :=
  let parent := Naming.path f.parent
  if parent.isEmpty then f.key else parent ++ "." ++ f.key

/-- The blocks of a field section, in order. -/
def lines (f : FieldSection) : List String :=
  ["### `" ++ f.path ++ "`", "**Type:** " ++ f.label.text ++ "\n"] ++
    (if f.required then ["**Required:** Yes\n"] else []) ++
    (f.default?.map fun d => "**Default:** `" ++ Toml.display d ++ "`\n").toList ++
    f.description?.toList ++ f.snippets.map Snippet.text ++ [""]

def text (f : FieldSection) : String := "\n".intercalate f.lines

end FieldSection

/-- What the page says about a definition. -/
structure DefinitionSection where
  name : String
  heading : String
  description? : Option String
  fields : List FieldSection

namespace DefinitionSection

/-- The blocks of a definition's section, in order. -/
def lines (d : DefinitionSection) : List String :=
  ("## " ++ d.heading) :: (d.description?.map (· ++ "\n")).toList ++ d.fields.map FieldSection.text

end DefinitionSection

namespace Schema

/-- The section of a field, called `key` in the table at `parent`. -/
def fieldSection (s : Schema) (parent : List String) (key : String) (required : Bool)
    (field : Object) : Except SchemaError FieldSection := do
  return {
    parent
    key
    label := ← field.label s
    required
    default? := field.default?
    description? := field.description?
    snippets := field.snippets (Naming.path parent) key }

/-- The sections for the field `name` of an object that requires the names in `required`. -/
def fieldSections (s : Schema) (closed : List String) (parent required : List String)
    (name : String) (field : Node) : Except SchemaError (List FieldSection) := do
  let schema := field.object?.getD []
  let key := Naming.external name field
  let own := (s.fieldSection parent key (required.contains name) schema).map fun f => [f]
  match Object.reference? schema with
  | none => own
  | some reference =>
    let (target, definition) ← s.resolveReference reference
    match definition.properties? with
    | none => own
    | some properties =>
      if _h : target ∈ closed then
        let nested ← properties.mapM fun e =>
          s.fieldSections (closed.erase target) (parent ++ [key]) definition.required e.1 e.2
        return nested.flatten
      else own
termination_by closed.length
decreasing_by
  have := List.length_pos_of_mem _h
  rw [List.length_erase_of_mem _h]
  omega

/-- The section of the definition `name`, whose fields stand in the table `table`. -/
def definitionSection (s : Schema) (name table : String) :
    Except SchemaError DefinitionSection := do
  let definition ← s.resolve name
  let closed := s.definitions.keys.erase name
  let fields ← definition.properties.mapM fun e =>
    s.fieldSections closed [table] definition.required e.1 e.2
  return {
    name
    heading := definition.title?.getD name
    description? := definition.description?
    fields := fields.flatten }

end Schema

end ConfigSchema
