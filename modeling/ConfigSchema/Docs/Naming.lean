import ConfigSchema.Schema.Keywords
import ConfigSchema.Text.Case

/-!
# Names in the manifest

A field is written in the manifest under its declared alias, or else under its identifier in kebab
case: a dash in front of every ASCII capital but a leading one, a dash for every underscore, and
small letters.
-/

namespace ConfigSchema

namespace Naming

/-- A character of an identifier in kebab case. -/
def kebabChar (c : Char) : List Char := if c = '_' then ['-'] else lowerChar c

/-- The part of an identifier after its first character, in kebab case. -/
def kebabRest (cs : List Char) : List Char :=
  cs.flatMap fun c => if c.isUpper then '-' :: kebabChar c else kebabChar c

def kebab (identifier : String) : String :=
  match identifier.toList with
  | [] => ""
  | c :: rest => String.ofList (kebabChar c ++ kebabRest rest)

/-- The name of a field in the manifest. -/
def external (identifier : String) (field : Node) : String :=
  (field.object?.bind Object.alias?).getD (kebab identifier)

/-- The path of a field, its names joined by points. -/
def path (segments : List String) : String := ".".intercalate segments

end Naming

end ConfigSchema
