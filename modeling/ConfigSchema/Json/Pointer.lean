import ConfigSchema.Json.Node

/-!
# JSON Pointer

A pointer is a slash in front of each token; inside a token `~0` stands for a tilde and `~1` for a
slash. `child` extends a pointer by a token, and `Node.follow` takes the tokens one by one: a key of
an object, or an index of a list in decimal without superfluous zeros. The empty pointer is the
whole document. `unescape` takes back what `escape` did.
-/

namespace ConfigSchema

namespace Pointer

/-- A token as it stands in a pointer. -/
def escape (token : List Char) : List Char :=
  token.flatMap fun c => if c = '~' then ['~', '0'] else if c = '/' then ['~', '1'] else [c]

/-- The token that is spelled so. A tilde before any other character stands for itself. -/
def unescape : List Char → List Char
  | '~' :: '0' :: rest => '~' :: unescape rest
  | '~' :: '1' :: rest => '/' :: unescape rest
  | c :: rest => c :: unescape rest
  | [] => []

def child (pointer token : String) : String :=
  String.ofList (pointer.toList ++ '/' :: escape token.toList)

def split : List Char → List (List Char)
  | [] => [[]]
  | c :: cs =>
    if c = '/' then [] :: split cs
    else match split cs with
      | [] => [[c]]
      | piece :: pieces => (c :: piece) :: pieces

/-- The tokens of a pointer. One that is not empty begins with a slash. -/
def tokens? : List Char → Option (List String)
  | [] => some []
  | '/' :: rest => some ((split rest).map fun piece => String.ofList (unescape piece))
  | _ => none

/-- The index that a token spells. -/
def index? (token : String) : Option Nat :=
  match token.toList with
  | ['0'] => some 0
  | [] => none
  | '0' :: _ => none
  | cs => if cs.all Char.isDigit then some (Nat.ofDigitChars 10 cs 0) else none

theorem unescape_escape (token : List Char) : unescape (escape token) = token := by
  induction token with
  | nil => rfl
  | cons c cs ih =>
    simp only [escape] at ih ⊢
    by_cases h₁ : c = '~'
    · simp [h₁, unescape, ih]
    · by_cases h₂ : c = '/'
      · simp [h₂, unescape, ih]
      · simp [h₁, h₂, unescape, ih]

end Pointer

namespace Node

/-- The part of a container that a token names. -/
def child? : Node → String → Option Node
  | object fs, token => Fields.get? fs token
  | array xs, token => (Pointer.index? token).bind fun i => xs[i]?
  | _, _ => none

/-- The value at the end of a list of tokens. -/
def follow (n : Node) : List String → Option Node
  | [] => some n
  | token :: rest => (n.child? token).bind fun part => part.follow rest

def at? (n : Node) (pointer : String) : Option Node :=
  (Pointer.tokens? pointer.toList).bind n.follow

end Node

end ConfigSchema
