import ConfigSchema.Json.Fields
import ConfigSchema.Json.Number

/-!
# Documents

A `Node` is a JSON value that keeps the order of object keys. `same` is equality up to that order.
-/

namespace ConfigSchema

/-- A JSON value. The entries of an object are a `Fields Node`. -/
inductive Node where
  | null
  | bool (b : Bool)
  | number (n : Number)
  | string (s : String)
  | array (items : List Node)
  | object (fields : List (String × Node))
deriving Repr, Inhabited

/-- The entries of an object. -/
abbrev Object := Fields Node

namespace Node

def object? : Node → Option Object
  | object fs => some fs
  | _ => none

def array? : Node → Option (List Node)
  | array xs => some xs
  | _ => none

def string? : Node → Option String
  | string s => some s
  | _ => none

def isNull : Node → Bool
  | null => true
  | _ => false

mutual

/-- Equality up to the order of keys. -/
def same : Node → Node → Bool
  | null, null => true
  | bool a, bool b => a == b
  | number a, number b => a.same b
  | string a, string b => a == b
  | array xs, array ys => sameItems xs ys
  | object fs, object gs => fs.length == gs.length && sameFields gs fs
  | _, _ => false

def sameItems : List Node → List Node → Bool
  | [], [] => true
  | x :: xs, y :: ys => same x y && sameItems xs ys
  | _, _ => false

/-- Whether every entry has its equal under the same key of `gs`. -/
def sameFields (gs : Object) : Object → Bool
  | [] => true
  | (k, v) :: fs =>
    (match gs.get? k with
      | some w => same v w
      | none => false) && sameFields gs fs

end

mutual

/-- How many containers are nested in a value, itself included. -/
def depth : Node → Nat
  | array xs => depthItems xs + 1
  | object fs => depthFields fs + 1
  | _ => 0

def depthItems : List Node → Nat
  | [] => 0
  | x :: xs => max (depth x) (depthItems xs)

def depthFields : Object → Nat
  | [] => 0
  | (_, v) :: fs => max (depth v) (depthFields fs)

end

end Node

end ConfigSchema
