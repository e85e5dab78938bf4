import ConfigSchema.Json.Fault

/-!
# Errors

What can go wrong between a text and the canonical schema or the documentation page. A constructor
names the cause and `SchemaError.message` words it.
-/

namespace ConfigSchema

/-- What a place of a schema should hold. -/
inductive Expectation where
  | schemaRoot
  | schemaObject
  | schemaArray
  | itemsSchema
  | patternMap
  | schemaOrFlag
  | text
deriving DecidableEq, Repr

def Expectation.wording : Expectation → String
  | schemaRoot => "an object at the schema root"
  | schemaObject => "a schema object"
  | schemaArray => "an array of schema objects"
  | itemsSchema => "a schema object under `items`"
  | patternMap => "a map of pattern to schema object"
  | schemaOrFlag => "a schema object or boolean under `additionalProperties`"
  | text => "a string"

/-- Why a filter is refused, in the words of what reads it. -/
inductive Refusal where
  | illFormed (reasons : List String)
  /-- Names that stand for nothing, each with what it was taken for. -/
  | undefinedNames (names : List (String × String))
deriving DecidableEq, Repr

def Refusal.wording (filter : String) : Refusal → String
  | illFormed reasons => "\n".intercalate <| reasons.map fun reason =>
      "parse error: " ++ reason ++ " in `" ++ filter ++ "`"
  | undefinedNames names => "\n".intercalate <| names.map fun (name, kind) =>
      "undefined `" ++ name ++ "`: " ++ kind ++ " in `" ++ filter ++ "`"

/-- Why nothing can be selected from a document. -/
inductive SelectionFault where
  | filterRefused (filter : String) (refusal : Refusal)
  /-- The filter fails on the document. -/
  | filterFails (reason : String)
  /-- The filter gives some other number of values than one. -/
  | notOneValue (filter : String) (count : Nat)
  /-- The pointer names no value. -/
  | nothingAt (pointer : String)
deriving DecidableEq, Repr

def SelectionFault.wording : SelectionFault → String
  | filterRefused filter refusal => refusal.wording filter
  | filterFails reason => "jq runtime error: " ++ reason
  | notOneValue filter count =>
    "jq filter `" ++ filter ++ "` produced " ++ toString count ++ " values, expected exactly one"
  | nothingAt pointer => "JSON pointer `" ++ pointer ++ "` matched nothing"

/-- Why there is no result. -/
inductive SchemaError where
  /-- The text does not begin with a JSON value. -/
  | unreadable (text : String) (fault : Fault)
  /-- A place of the schema holds a value of the wrong shape. -/
  | malformed (location : String) (expected : Expectation)
  /-- A reference names a definition that does not exist. -/
  | unresolved (reference name : String)
  /-- A reference does not point at a definition of this schema. -/
  | unsupported (reference : String)
  | selection (fault : SelectionFault)
  /-- A text is not one JSON value as a whole. -/
  | notOneDocument (text : String) (stop : Stop)
deriving DecidableEq, Repr

namespace SchemaError

/-- A wrong shape at `location`, where the root is `/`. -/
def malformedAt (location : String) (expected : Expectation) : SchemaError :=
  malformed (if location.isEmpty then "/" else location) expected

/-- How the wording of a failed selection begins. -/
def selectionHead : String := "failed to select schema from input:"

def message : SchemaError → String
  | unreadable text fault =>
    "failed to parse schema at `" ++ fault.pathText ++ "`: " ++ fault.stop.message text.toList
  | malformed location expected =>
    "malformed schema at `" ++ location ++ "`: expected " ++ expected.wording
  | unresolved reference name =>
    "unresolved reference `" ++ reference ++ "`: `$defs` has no entry named `" ++ name ++ "`"
  | unsupported reference =>
    "unsupported reference `" ++ reference ++ "`: only `#/$defs/<Name>` pointers are understood"
  | selection fault => selectionHead ++ " " ++ fault.wording
  | notOneDocument text stop => stop.message text.toList

end SchemaError

end ConfigSchema
