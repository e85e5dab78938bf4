import ConfigSchema.Filter.Quantity
import ConfigSchema.Json.Quoted
import ConfigSchema.Text.WhiteSpace

/-!
# Tokens of a filter

A filter is read as tokens with white space and comments between them. A point directly in front of
a name makes one token with it, and so does a run of operator characters, however many operators it
could be cut into. Strings have the escapes of JSON, but no two of them spell one character, and no
interpolation.
-/

namespace ConfigSchema

inductive Token where
  | word (name : String)
  /-- A point and a name. -/
  | field (name : String)
  | text (s : String)
  | number (q : Quantity)
  | point
  | pipe
  | comma
  | colon
  | semicolon
  | question
  | minus
  | equal
  | alternative
  | openParen
  | closeParen
  | openBracket
  | closeBracket
  | openBrace
  | closeBrace
deriving DecidableEq, Repr

namespace Token

def beginsName (c : Char) : Bool := c.isAlpha || c == '_'

def continuesName (c : Char) : Bool := c.isAlphanum || c == '_'

def isOperator (c : Char) : Bool :=
  ['|', '=', '!', '<', '>', '+', '-', '*', '/', '%'].contains c

/-- The operator that a run of operator characters is. -/
def operator? : List Char → Option Token
  | ['|'] => some pipe
  | ['-'] => some minus
  | ['=', '='] => some equal
  | ['/', '/'] => some alternative
  | _ => none

/-- The token of one character. -/
def single? : Char → Option Token
  | '.' => some point
  | ',' => some comma
  | ':' => some colon
  | ';' => some semicolon
  | '?' => some question
  | '(' => some openParen
  | ')' => some closeParen
  | '[' => some openBracket
  | ']' => some closeBracket
  | '{' => some openBrace
  | '}' => some closeBrace
  | _ => none

/-! ### Strings -/

/-- Reads an escape after its backslash. A surrogate is no character, whatever follows it. -/
def readEscape? : List Char → Option (Char × List Char)
  | [] => none
  | 'u' :: rest =>
    match Quoted.readUnit rest with
    | .error _ => none
    | .ok (unit, rest) =>
      if Quoted.IsLeading unit ∨ Quoted.IsTrailing unit then none
      else some (Char.ofNat unit, rest)
  | c :: rest => (Quoted.named? c).map fun d => (d, rest)

theorem length_readEscape? {cs rest : List Char} {c : Char} (h : readEscape? cs = some (c, rest)) :
    rest.length < cs.length := by
  unfold readEscape? at h
  split at h
  · simp at h
  · split at h
    · simp at h
    · next hu =>
      split at h
      · simp at h
      · have := Quoted.length_readUnit hu
        simp only [Option.some.injEq, Prod.mk.injEq] at h
        simp only [← h.2, List.length_cons]
        omega
  · obtain ⟨d, -, he⟩ := Option.map_eq_some_iff.mp h
    simp only [Prod.mk.injEq] at he
    simp [← he.2]

/-- Reads a string after its opening quote; `done` holds the characters so far, the last one
first. Unlike in a document, characters below U+0020 may stand between the quotes. -/
def readText? (done cs : List Char) : Option (String × List Char) :=
  match cs with
  | [] => none
  | '"' :: rest => some (String.ofList done.reverse, rest)
  | '\\' :: escaped =>
    match _h : readEscape? escaped with
    | none => none
    | some (c, rest) => readText? (c :: done) rest
  | c :: rest => readText? (c :: done) rest
termination_by cs.length
decreasing_by
  · have := length_readEscape? _h
    simp only [List.length_cons]
    omega
  · simp

theorem length_readText? {done cs rest : List Char} {s : String}
    (h : readText? done cs = some (s, rest)) : rest.length < cs.length := by
  fun_induction readText? done cs with
  | case1 => simp at h
  | case2 done r =>
    simp only [Option.some.injEq, Prod.mk.injEq] at h
    simp [h.2]
  | case3 => simp at h
  | case4 done escaped c r hr ih =>
    have := ih h
    have := length_readEscape? hr
    simp only [List.length_cons]
    omega
  | case5 done c r _ _ ih =>
    have := ih h
    simp only [List.length_cons]
    omega

/-! ### One token -/

/-- The name at the start of a text, and the rest. -/
def readName (cs : List Char) : String × List Char :=
  (String.ofList (cs.takeWhile continuesName), cs.dropWhile continuesName)

/-- The token at the start of a text that does not begin with white space, and the rest. Two points
in a row are no token. -/
def read? : List Char → Option (Token × List Char)
  | [] => none
  | '"' :: rest => (readText? [] rest).map fun r => (text r.1, r.2)
  | '.' :: '.' :: _ => none
  | '.' :: c :: rest =>
    if beginsName c then
      let (name, rest) := readName (c :: rest)
      some (field name, rest)
    else some (point, c :: rest)
  | c :: rest =>
    if beginsName c then
      let (name, rest) := readName (c :: rest)
      some (word name, rest)
    else if c.isDigit then (Quantity.read? (c :: rest)).map fun r => (number r.1, r.2)
    else if isOperator c then
      (operator? ((c :: rest).takeWhile isOperator)).map fun t => (t, rest.dropWhile isOperator)
    else (single? c).map fun t => (t, rest)

theorem length_dropWhile_lt {p : Char → Bool} {c : Char} {cs : List Char} (h : p c = true) :
    ((c :: cs).dropWhile p).length < (c :: cs).length := by
  have := (@List.dropWhile_sublist _ cs p).length_le
  simp only [List.dropWhile, h, List.length_cons]
  omega

theorem length_readName {c : Char} {cs : List Char} (h : beginsName c = true) :
    (readName (c :: cs)).2.length < (c :: cs).length := by
  apply length_dropWhile_lt
  simp only [beginsName, continuesName, Char.isAlphanum, Bool.or_eq_true] at h ⊢
  exact h.imp Or.inl id

theorem length_read? {cs rest : List Char} {t : Token} (h : read? cs = some (t, rest)) :
    rest.length < cs.length := by
  unfold read? at h
  split at h
  · cases h
  · obtain ⟨_, htext, he⟩ := Option.map_eq_some_iff.mp h
    cases he
    exact Nat.lt_succ_of_lt (length_readText? htext)
  · cases h
  · next c r _ =>
    split at h
    · next hc =>
      cases h
      exact Nat.lt_succ_of_lt (length_readName hc)
    · cases h
      exact Nat.lt_succ_self _
  · next c r _ _ _ =>
    split at h
    · next hc =>
      cases h
      exact length_readName hc
    split at h
    · next hc =>
      obtain ⟨q, hq, he⟩ := Option.map_eq_some_iff.mp h
      cases he
      exact Nat.lt_of_le_of_lt (Quantity.length_read?_le hq) (length_dropWhile_lt hc)
    split at h
    · obtain ⟨t', -, he⟩ := Option.map_eq_some_iff.mp h
      cases he
      exact Nat.lt_succ_of_le (List.dropWhile_sublist _).length_le
    · obtain ⟨t', -, he⟩ := Option.map_eq_some_iff.mp h
      cases he
      exact Nat.lt_succ_self _

/-! ### Between tokens -/

/-- Whether a comment that ends with this line goes on in the next one: an odd number of backslashes
stands at its end, in front of a carriage return or not. -/
def isContinued (line : List Char) : Bool :=
  let backwards := match line.reverse with
    | '\r' :: rest => rest
    | rest => rest
  (backwards.takeWhile (· == '\\')).length % 2 == 1

/-- The text after a comment, whose mark has been read. -/
def skipComment (cs : List Char) : List Char :=
  match _h : cs.dropWhile (· != '\n') with
  | [] => []
  | _ :: rest => if isContinued (cs.takeWhile (· != '\n')) then skipComment rest else rest
termination_by cs.length
decreasing_by
  have := (@List.dropWhile_sublist _ cs (· != '\n')).length_le
  rw [_h] at this
  exact this

theorem length_skipComment_le (cs : List Char) : (skipComment cs).length ≤ cs.length := by
  fun_induction skipComment cs with
  | case1 => simp
  | case2 cs _ rest h _ ih =>
    have := (@List.dropWhile_sublist _ cs (· != '\n')).length_le
    rw [h] at this
    simp only [List.length_cons] at this
    omega
  | case3 cs _ rest h _ =>
    have := (@List.dropWhile_sublist _ cs (· != '\n')).length_le
    rw [h] at this
    simp only [List.length_cons] at this
    omega

/-- The text after leading white space and comments, which begin with `#`. -/
def skip (cs : List Char) : List Char :=
  match _h : cs.dropWhile isWhiteSpace with
  | '#' :: rest => skip (skipComment rest)
  | rest => rest
termination_by cs.length
decreasing_by
  have h₁ := (@List.dropWhile_sublist _ cs isWhiteSpace).length_le
  have h₂ := length_skipComment_le rest
  rw [_h] at h₁
  simp only [List.length_cons] at h₁
  omega

theorem length_skip_le (cs : List Char) : (skip cs).length ≤ cs.length := by
  fun_induction skip cs with
  | case1 cs rest h ih =>
    have h₁ := (@List.dropWhile_sublist _ cs isWhiteSpace).length_le
    have h₂ := length_skipComment_le rest
    rw [h] at h₁
    simp only [List.length_cons] at h₁
    omega
  | case2 cs => exact (List.dropWhile_sublist _).length_le

/-- All tokens of a filter; none when some part of the text is no token. -/
def all? (cs : List Char) : Option (List Token) :=
  match _h : skip cs with
  | [] => some []
  | c :: rest =>
    match _hr : read? (c :: rest) with
    | none => none
    | some (t, rest) => (all? rest).map (t :: ·)
termination_by cs.length
decreasing_by
  have h₁ := length_read? _hr
  have h₂ := length_skip_le cs
  rw [_h] at h₂
  omega

end Token

end ConfigSchema
