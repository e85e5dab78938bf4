import ConfigSchema.Filter.Quantity
import ConfigSchema.Json.Printer

/-!
# Values of filters

A filter works on the values of documents, but with numbers of its own. A value of a document is
written as it was there, `chars_ofNode`.

Indexing and iterating need a container of the right kind, and fail on null too; a missing key or
index gives null. An `Output` is a value or a failure, for which `none` stands.
-/

namespace ConfigSchema

namespace Filter

/-- A value that a filter works on. -/
inductive Value where
  | null
  | bool (b : Bool)
  | number (q : Quantity)
  | string (s : String)
  | array (items : List Value)
  | object (fields : List (String × Value))
deriving Repr, Inhabited

/-- An output: a value, or a failure. -/
abbrev Output := Option Value

/-- A step from a value into its parts, with keys and bounds of type `α`. -/
inductive Selector (α : Type) where
  | each
  /-- The part that a key or an index names. -/
  | index (key : α)
  /-- A piece of a sequence; without a bound it extends to the end on that side. -/
  | piece (lower upper : Option α)

namespace Value

mutual

def ofNode : Node → Value
  | .null => null
  | .bool b => bool b
  | .number n => number (.ofNumber n)
  | .string s => string s
  | .array xs => array (ofItems xs)
  | .object fs => object (ofEntries fs)

def ofItems : List Node → List Value
  | [] => []
  | x :: xs => ofNode x :: ofItems xs

/-- The entries of an object. -/
def ofEntries : Object → Fields Value
  | [] => []
  | (k, v) :: fs => (k, ofNode v) :: ofEntries fs

end

/-! ### Text -/

mutual

/-- The text of a value, without blanks. -/
def chars : Value → List Char
  | null => ['n', 'u', 'l', 'l']
  | bool true => ['t', 'r', 'u', 'e']
  | bool false => ['f', 'a', 'l', 's', 'e']
  | number q => q.chars
  | string s => Quoted.encode s.toList
  | array [] => ['[', ']']
  | array (x :: xs) => '[' :: chars x ++ charsItems xs ++ [']']
  | object [] => ['{', '}']
  | object ((k, v) :: fs) =>
    '{' :: Quoted.encode k.toList ++ ':' :: chars v ++ charsFields fs ++ ['}']

def charsItems : List Value → List Char
  | [] => []
  | x :: xs => ',' :: chars x ++ charsItems xs

def charsFields : Fields Value → List Char
  | [] => []
  | (k, v) :: fs => ',' :: Quoted.encode k.toList ++ ':' :: chars v ++ charsFields fs

end

def text (v : Value) : String := String.ofList v.chars

mutual

/-- A value of a document is written as it was there. -/
theorem chars_ofNode (n : Node) (depth : Nat) : (ofNode n).chars = n.chars .compact depth := by
  cases n with
  | null => rfl
  | bool b => cases b <;> rfl
  | number n => exact Quantity.chars_ofNumber n
  | string s => rfl
  | array xs =>
    cases xs with
    | nil => rfl
    | cons x xs =>
      simp [ofNode, ofItems, chars, Node.chars, Layout.lineBreak, chars_ofNode x (depth + 1),
        charsItems_ofItems xs (depth + 1)]
  | object fs =>
    cases fs with
    | nil => rfl
    | cons e fs =>
      obtain ⟨k, v⟩ := e
      simp [ofNode, ofEntries, chars, Node.chars, Layout.lineBreak, Layout.colon,
        chars_ofNode v (depth + 1), charsFields_ofEntries fs (depth + 1)]

theorem charsItems_ofItems (xs : List Node) (depth : Nat) :
    charsItems (ofItems xs) = Node.charsItems .compact depth xs := by
  cases xs with
  | nil => rfl
  | cons x xs =>
    simp [ofItems, charsItems, Node.charsItems, Layout.lineBreak, chars_ofNode x depth,
      charsItems_ofItems xs depth]

theorem charsFields_ofEntries (fs : Object) (depth : Nat) :
    charsFields (ofEntries fs) = Node.charsFields .compact depth fs := by
  cases fs with
  | nil => rfl
  | cons e fs =>
    obtain ⟨k, v⟩ := e
    simp [ofEntries, charsFields, Node.charsFields, Layout.lineBreak, Layout.colon,
      chars_ofNode v depth, charsFields_ofEntries fs depth]

end

theorem text_ofNode (n : Node) : (ofNode n).text = n.compact := by
  simp [text, Node.compact, chars_ofNode n 0]

/-! ### Comparison -/

mutual

/-- Equality up to the order of keys. -/
def same : Value → Value → Bool
  | null, null => true
  | bool a, bool b => a == b
  | number a, number b => a.same b
  | string a, string b => a == b
  | array xs, array ys => sameItems xs ys
  | object fs, object gs => fs.length == gs.length && sameFields gs fs
  | _, _ => false

def sameItems : List Value → List Value → Bool
  | [], [] => true
  | x :: xs, y :: ys => same x y && sameItems xs ys
  | _, _ => false

/-- Whether every entry has its equal under the same key of `gs`. -/
def sameFields (gs : Fields Value) : Fields Value → Bool
  | [] => true
  | (k, v) :: fs =>
    (match gs.get? k with
      | some w => same v w
      | none => false) && sameFields gs fs

end

def isTruthy : Value → Bool
  | null => false
  | bool b => b
  | _ => true

/-! ### Parts -/

/-- Where an offset lies in a sequence, which it does not leave: a negative one counts from the
end. -/
def position (length : Nat) (offset : Int) : Nat :=
  if 0 ≤ offset then min offset.toNat length else length - offset.natAbs

/-- The item at an offset, where a negative one counts from the end. -/
def item? (xs : List Value) (offset : Int) : Option Value :=
  if 0 ≤ offset then xs[offset.toNat]?
  else if offset.natAbs ≤ xs.length then xs[xs.length - offset.natAbs]?
  else none

/-- The part that a value names: an item by its offset, or the value of a key. -/
def part : Value → Value → Output
  | array xs, number (.integer i) => some ((item? xs i.toInt).getD null)
  | object fs, string key => some ((Fields.get? fs key).getD null)
  | _, _ => none

def bound? (length otherwise : Nat) : Option Value → Option Nat
  | none => some otherwise
  | some (number (.integer i)) => some (position length i.toInt)
  | some _ => none

def pieceOf {α : Type} (xs : List α) (lower upper : Option Value) : Option (List α) := do
  let first ← bound? xs.length 0 lower
  let last ← bound? xs.length xs.length upper
  return (xs.drop first).take (last - first)

/-- A piece of a list or a text. -/
def piece (v : Value) (lower upper : Option Value) : Output :=
  match v with
  | array xs => (pieceOf xs lower upper).map array
  | string s => (pieceOf s.toList lower upper).map fun cs => string (String.ofList cs)
  | _ => none

/-- The items of a list, or the values of an object. -/
def parts? : Value → Option (List Value)
  | array xs => some xs
  | object fs => some (fs.map (·.2))
  | _ => none

def step (v : Value) : Selector Value → List Output
  | .each =>
    match v.parts? with
    | some parts => parts.map some
    | none => [none]
  | .index key => [v.part key]
  | .piece lower upper => [v.piece lower upper]

/-! ### Functions -/

/-- The indices of a list, or the keys of an object in order. -/
def keyList : Value → Output
  | array xs => some (array ((List.range xs.length).map fun i => number (.ofCount i)))
  | object fs => some (array ((Fields.sort fs).keys.map string))
  | _ => none

/-- The size of a container, the characters of a text, the absolute value of a number. -/
def lengthOf : Value → Output
  | null => some (number (.ofCount 0))
  | bool _ => none
  | number q => some (number q.absolute)
  | string s => some (number (.ofCount s.length))
  | array xs => some (number (.ofCount xs.length))
  | object fs => some (number (.ofCount fs.length))

def negated : Value → Output
  | number q => some (number q.negated)
  | _ => none

end Value

end Filter

end ConfigSchema
