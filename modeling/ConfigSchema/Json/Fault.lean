/-!
# What is wrong with a text

A reader that stops says what it misses and how many bytes of the text it leaves: `Stop.here`
blames the first byte that is left, which is then read. The line and column of a fault are those of
the last byte read, so they need only this count and the text. `Fault` adds the path to the
innermost value whose reading had begun.
-/

namespace ConfigSchema

/-- The number of bytes of a text in UTF-8. -/
def byteLength : List Char → Nat
  | [] => 0
  | c :: cs => c.utf8Size + byteLength cs

/-- What a reader misses. -/
inductive Complaint where
  | valueExpected
  | wordExpected
  | colonExpected
  | commaOrBracketExpected
  | commaOrBraceExpected
  | trailingComma
  | keyNotText
  | invalidNumber
  | numberOutOfRange
  | controlCharacter
  | invalidEscape
  | hexEscapeEnds
  | loneSurrogate
  | tooDeep
  | endInValue
  | endInList
  | endInObject
  | endInText
  | trailingCharacters
deriving DecidableEq, Repr

def Complaint.text : Complaint → String
  | valueExpected => "expected value"
  | wordExpected => "expected ident"
  | colonExpected => "expected `:`"
  | commaOrBracketExpected => "expected `,` or `]`"
  | commaOrBraceExpected => "expected `,` or `\x7d`"
  | trailingComma => "trailing comma"
  | keyNotText => "key must be a string"
  | invalidNumber => "invalid number"
  | numberOutOfRange => "number out of range"
  | controlCharacter => "control character (\\u0000-\\u001F) found while parsing a string"
  | invalidEscape => "invalid escape"
  | hexEscapeEnds => "unexpected end of hex escape"
  | loneSurrogate => "lone leading surrogate in hex escape"
  | tooDeep => "recursion limit exceeded"
  | endInValue => "EOF while parsing a value"
  | endInList => "EOF while parsing a list"
  | endInObject => "EOF while parsing an object"
  | endInText => "EOF while parsing a string"
  | trailingCharacters => "trailing characters"

/-- A complaint and the number of bytes left unread. -/
structure Stop where
  complaint : Complaint
  left : Nat
deriving DecidableEq, Repr

/-- A complaint about the first byte of `cs`, or about the end of the text when nothing is left. -/
def Stop.here (complaint : Complaint) (cs : List Char) : Stop := ⟨complaint, byteLength cs - 1⟩

/-- A complaint raised after reading up to `cs`. -/
def Stop.before (complaint : Complaint) (cs : List Char) : Stop := ⟨complaint, byteLength cs⟩

/-- A step from a value into one of its parts. -/
inductive Step where
  | item (index : Nat)
  | entry (key : String)
  /-- An object whose next key is not known yet. -/
  | unknown
deriving DecidableEq, Repr

/-- A reader's stop, with the way from the document to the innermost value begun. -/
structure Fault where
  path : List Step
  stop : Stop
deriving DecidableEq, Repr

def Step.text : Step → String
  | item i => "[" ++ toString i ++ "]"
  | entry k => k
  | unknown => "?"

/-- The text of the steps after the first: a point stands in front of everything but an index. -/
def Step.further : List Step → String
  | [] => ""
  | item i :: rest => (item i).text ++ further rest
  | s :: rest => "." ++ s.text ++ further rest

/-- The text of a path; the document itself is `.`. -/
def Fault.pathText (f : Fault) : String :=
  match f.path with
  | [] => "."
  | s :: rest => s.text ++ Step.further rest

/-- Line and column after `offset` bytes of a text, counted on from the given ones. A line break
belongs to the line that it starts. -/
def position : List Char → (offset line column : Nat) → Nat × Nat
  | [], _, line, column => (line, column)
  | c :: rest, offset, line, column =>
    if offset < c.utf8Size then (line, column + offset)
    else if c = '\n' then position rest (offset - 1) (line + 1) 0
    else position rest (offset - c.utf8Size) line (column + c.utf8Size)

/-- The message of a stop in `text`. -/
def Stop.message (text : List Char) (s : Stop) : String :=
  let (line, column) := position text (byteLength text - s.left) 1 0
  s.complaint.text ++ " at line " ++ toString line ++ " column " ++ toString column

end ConfigSchema
