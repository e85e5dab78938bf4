import ConfigSchema.Json.Node
import ConfigSchema.Json.Quoted

/-!
# Writing documents

One printer writes both layouts: `compact` has no blanks, `indented` puts every item and entry on a
line of its own, two blanks deeper than its container. An empty container is closed at once in
both.
-/

namespace ConfigSchema

/-- Where blanks go. -/
inductive Layout where
  | compact
  | indented
deriving DecidableEq, Repr

namespace Layout

/-- What separates the parts of a container at `depth`. -/
def lineBreak : Layout → Nat → List Char
  | compact, _ => []
  | indented, depth => '\n' :: List.replicate (2 * depth) ' '

def colon : Layout → List Char
  | compact => [':']
  | indented => [':', ' ']

end Layout

namespace Node

mutual

/-- The text of a value that stands at `depth`. -/
def chars (l : Layout) (depth : Nat) : Node → List Char
  | null => ['n', 'u', 'l', 'l']
  | bool true => ['t', 'r', 'u', 'e']
  | bool false => ['f', 'a', 'l', 's', 'e']
  | number n => n.chars
  | string s => Quoted.encode s.toList
  | array [] => ['[', ']']
  | array (x :: xs) =>
    '[' :: l.lineBreak (depth + 1) ++ chars l (depth + 1) x ++ charsItems l (depth + 1) xs ++
      l.lineBreak depth ++ [']']
  | object [] => ['{', '}']
  | object ((k, v) :: fs) =>
    '{' :: l.lineBreak (depth + 1) ++ Quoted.encode k.toList ++ l.colon ++ chars l (depth + 1) v ++
      charsFields l (depth + 1) fs ++ l.lineBreak depth ++ ['}']

def charsItems (l : Layout) (depth : Nat) : List Node → List Char
  | [] => []
  | x :: xs => ',' :: l.lineBreak depth ++ chars l depth x ++ charsItems l depth xs

def charsFields (l : Layout) (depth : Nat) : Object → List Char
  | [] => []
  | (k, v) :: fs =>
    ',' :: l.lineBreak depth ++ Quoted.encode k.toList ++ l.colon ++ chars l depth v ++
      charsFields l depth fs

end

/-- The text without blanks. -/
def compact (n : Node) : String := String.ofList (n.chars .compact 0)

/-- The text with one item or entry a line, ended by a line break. -/
def pretty (n : Node) : String := String.ofList (n.chars .indented 0 ++ ['\n'])

end Node

end ConfigSchema
