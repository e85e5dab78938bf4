import ConfigSchema.Schema.Basic
import ConfigSchema.Text.Case

/-!
# Type labels

What the documentation says about the type of a field: a link for a reference, the options of a
union without nulls, `List[…]` for an array, or the names of the type.
-/

namespace ConfigSchema

/-- The type of a field. -/
inductive Label where
  /-- The definition that the field refers to. -/
  | link (definition : String)
  | options (labels : List Label)
  | list (item : Label)
  | names (types : List String)
  | unknown

namespace Label

def anchor (definition : String) : String := lower definition

mutual

def text : Label → String
  | link definition => "[" ++ definition ++ "](#" ++ anchor definition ++ ")"
  | options labels => " | ".intercalate (texts labels)
  | list item => "List[" ++ text item ++ "]"
  | names types => " | ".intercalate (types.map capitalize)
  | unknown => "Unknown"

def texts : List Label → List String
  | [] => []
  | l :: ls => text l :: texts ls

end

end Label

namespace Object

/-- The union that a field's type is read from. -/
def unionKey (o : Object) : String := if (o.variants "anyOf").isEmpty then "oneOf" else "anyOf"

/-- The variants of that union whose type is not null. -/
def typeOptions (o : Object) : List Object :=
  (o.variants o.unionKey).filter fun option => !option.isNullType

theorem sizeOf_lt_of_mem_typeOptions {o p : Object} (h : p ∈ o.typeOptions) :
    sizeOf p < sizeOf o :=
  sizeOf_lt_of_mem_variants (List.mem_filter.mp h).1

def label (s : Schema) (field : Object) : Except SchemaError Label := do
  match field.reference? with
  | some reference =>
    let (name, _) ← s.resolveReference reference
    return .link name
  | none =>
    let labels ← field.typeOptions.attach.mapM fun option => label s option.1
    if !labels.isEmpty then return .options labels
    match field.typeNames.filter (· ≠ "null") with
    | [] => return .unknown
    | ["array"] =>
      match _h : field.itemSchema? with
      | some items => return .list (← label s items)
      | none => return .list .unknown
    | names => return .names names
termination_by sizeOf field
decreasing_by
  · exact sizeOf_lt_of_mem_typeOptions option.2
  · exact sizeOf_lt_of_object? _h

end Object

end ConfigSchema
