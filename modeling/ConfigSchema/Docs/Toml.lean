import ConfigSchema.Json.Printer

/-!
# TOML values

How example values are written in TOML: strings as in JSON, keys bare when they consist of ASCII
letters, digits, dashes and underscores, lists and inline tables on one line. TOML has no null, so a
null inside an example keeps its JSON spelling.
-/

namespace ConfigSchema

namespace Toml

def quote (s : String) : String := String.ofList (Quoted.encode s.toList)

/-- Whether a key needs no quotes. -/
def isBare (key : String) : Bool :=
  !key.isEmpty && key.toList.all fun c => c.isAlphanum || c == '-' || c == '_'

/-- A key, bare when possible. -/
def key (k : String) : String := if isBare k then k else quote k

mutual

/-- A value on one line. -/
def literal : Node → String
  | .null => "null"
  | .bool b => if b then "true" else "false"
  | .number n => String.ofList n.chars
  | .string s => quote s
  | .array xs => "[" ++ ", ".intercalate (literalItems xs) ++ "]"
  | .object [] => "\x7b\x7d"
  | .object ((k, v) :: fs) =>
    "\x7b " ++ ", ".intercalate ((key k ++ " = " ++ literal v) :: literalFields fs) ++ " \x7d"

def literalItems : List Node → List String
  | [] => []
  | x :: xs => literal x :: literalItems xs

def literalFields : Object → List String
  | [] => []
  | (k, v) :: fs => (key k ++ " = " ++ literal v) :: literalFields fs

end

/-- A value as text: a string as it is, anything else as its literal. -/
def display : Node → String
  | .string s => s
  | n => literal n

end Toml

end ConfigSchema
