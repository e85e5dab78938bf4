import ConfigSchema.Docs.Naming
import ConfigSchema.Docs.Toml

/-!
# Example snippets

The examples of a field as TOML assignments under the table that holds the field. Examples that are
all objects are merged into one table, in which the last value of a key counts and stands where the
key first came up; its values are shown as text. Otherwise every example that is not null makes an
assignment of its own, in a list when the field holds lists.
-/

namespace ConfigSchema

/-- Assignments in a table; the table of the empty name is the document itself. -/
structure Snippet where
  table : String
  assignments : Fields Node

namespace Snippet

/-- The text of a snippet, in a fence. -/
def text (s : Snippet) : String :=
  "```toml\n" ++ (if s.table.isEmpty then "" else "[" ++ s.table ++ "]\n") ++
    "\n".intercalate (s.assignments.map fun e => Toml.key e.1 ++ " = " ++ Toml.literal e.2) ++
    "\n```"

/-- The entries of several tables; of several under one key the last value counts, at the place of
the first. -/
def merge (tables : List Object) : Object := tables.foldl Fields.insertAll []

/-- An example of a field that holds lists, as a list. -/
def asList : Node → Node
  | .array xs => .array xs
  | n => .array [n]

end Snippet

namespace Object

/-- Whether a field is said to hold lists, by its type or that of an `anyOf` variant. -/
def holdsLists (field : Object) : Bool :=
  field.typeNames.contains "array" ||
    (field.variants "anyOf").any fun option => option.typeName? == some "array"

/-- The snippets for the examples of a field, which is called `key` in `table`. -/
def snippets (field : Object) (table key : String) : List Snippet :=
  if field.examples.isEmpty then []
  else if field.examples.all fun n => n.object?.isSome then
    let merged := Snippet.merge (field.examples.filterMap Node.object?)
    [⟨table, merged.mapValues fun v => .string (Toml.display v)⟩]
  else
    (field.examples.filter fun n => !n.isNull).map fun n =>
      ⟨table, [(key, if field.holdsLists then Snippet.asList n else n)]⟩

end Object

end ConfigSchema
