import ConfigSchema.Json.Node
import ConfigSchema.Json.Numeral
import ConfigSchema.Json.Quoted
import ConfigSchema.Result

/-!
# Reading documents

The reader keeps the containers that are open as a stack of frames, the innermost first. `value`
begins a value, `entry` a key, and `resume` puts a finished value into the innermost container, so
that `resume v [] cs` is the end. Each call has less text left than the one before it. The stack
gives the depth, of which `maxDepth` is the limit, and the path of a fault.

`Node.read` reads one value and leaves the rest of the text; `Node.ofText` wants nothing but blanks
after it.
-/

namespace ConfigSchema

/-- How many containers may be nested. -/
def maxDepth : Nat := 127

inductive Frame where
  /-- A list, with the items read so far, the last one first. -/
  | items (done : List Node)
  /-- An object, with the entries read so far and the key whose value is being read. -/
  | entries (done : List (String × Node)) (key : String)

namespace Frame

/-- The step into the value that is being read. -/
def step : Frame → Step
  | items done => .item done.length
  | entries _ key => .entry key

/-- The path to the value that is being read inside these containers. -/
def path (stack : List Frame) : List Step := (stack.map step).reverse

end Frame

def isBlank (c : Char) : Bool := c == ' ' || c == '\n' || c == '\t' || c == '\r'

def skipBlanks (cs : List Char) : List Char := cs.dropWhile isBlank

theorem length_skipBlanks_le (cs : List Char) : (skipBlanks cs).length ≤ cs.length :=
  (List.dropWhile_sublist isBlank).length_le

theorem length_of_skipBlanks {cs rest : List Char} (h : skipBlanks cs = rest) :
    rest.length ≤ cs.length := h ▸ length_skipBlanks_le cs

theorem length_of_skipBlanks_cons {cs rest : List Char} {c : Char} (h : skipBlanks cs = c :: rest) :
    rest.length < cs.length := length_of_skipBlanks h

/-- Reads the rest of a word. -/
def readWord : List Char → List Char → Except Stop (List Char)
  | [], cs => .ok cs
  | _ :: _, [] => .error ⟨.endInValue, 0⟩
  | w :: word, c :: cs =>
    if c = w then readWord word cs else .error (Stop.here .wordExpected (c :: cs))

theorem length_readWord_le {word cs rest : List Char} (h : readWord word cs = .ok rest) :
    rest.length ≤ cs.length := by
  induction word generalizing cs with
  | nil =>
    simp only [readWord, Except.ok.injEq] at h
    simp [h]
  | cons w word ih =>
    cases cs with
    | nil => simp [readWord] at h
    | cons c cs =>
      simp only [readWord] at h
      split at h
      · have := ih h
        simp only [List.length_cons]
        omega
      · simp at h

/-- Reads a value that is no container, up to its end. -/
def readScalar : List Char → Except Stop (Node × List Char)
  | 'n' :: rest => (readWord ['u', 'l', 'l'] rest).map (.null, ·)
  | 't' :: rest => (readWord ['r', 'u', 'e'] rest).map (.bool true, ·)
  | 'f' :: rest => (readWord ['a', 'l', 's', 'e'] rest).map (.bool false, ·)
  | '"' :: rest => (Quoted.read rest).map fun r => (.string r.1, r.2)
  | c :: rest =>
    if c = '-' ∨ c.isDigit then (Number.read (c :: rest)).map fun r => (.number r.1, r.2)
    else .error (Stop.here .valueExpected (c :: rest))
  | [] => .error ⟨.endInValue, 0⟩

theorem length_readScalar {cs rest : List Char} {n : Node} (h : readScalar cs = .ok (n, rest)) :
    rest.length < cs.length := by
  unfold readScalar at h
  split at h
  · obtain ⟨_, hword, he⟩ := Result.map_eq_ok_iff.mp h
    cases he
    exact Nat.lt_succ_of_le (length_readWord_le hword)
  · obtain ⟨_, hword, he⟩ := Result.map_eq_ok_iff.mp h
    cases he
    exact Nat.lt_succ_of_le (length_readWord_le hword)
  · obtain ⟨_, hword, he⟩ := Result.map_eq_ok_iff.mp h
    cases he
    exact Nat.lt_succ_of_le (length_readWord_le hword)
  · obtain ⟨_, htext, he⟩ := Result.map_eq_ok_iff.mp h
    cases he
    exact Nat.lt_succ_of_lt (Quoted.length_read htext)
  · split at h
    · obtain ⟨_, hnumber, he⟩ := Result.map_eq_ok_iff.mp h
      cases he
      exact Number.length_read hnumber
    · cases h
  · cases h

namespace Reader

/-- A stop at a value inside the containers of `stack`. -/
def fail {α : Type} (stack : List Frame) (stop : Stop) : Except Fault α :=
  .error ⟨Frame.path stack, stop⟩

/-- A stop in an object that looks for its next key. -/
def failKey {α : Type} (stack : List Frame) (stop : Stop) : Except Fault α :=
  .error ⟨Frame.path stack ++ [.unknown], stop⟩

/-- Reads a key and the colon after it. -/
def readKey (below : List Frame) : List Char → Except Fault (String × List Char)
  | '"' :: rest =>
    match Quoted.read rest with
    | .error stop => failKey below stop
    | .ok (key, rest) =>
      match skipBlanks rest with
      | [] => fail below ⟨.endInObject, 0⟩
      | ':' :: rest => .ok (key, rest)
      | rest => fail below (Stop.here .colonExpected rest)
  | cs => failKey below (Stop.here .keyNotText cs)

theorem length_readKey {below : List Frame} {cs rest : List Char} {key : String}
    (h : readKey below cs = .ok (key, rest)) : rest.length < cs.length := by
  unfold readKey at h
  split at h
  · split at h
    · simp [failKey] at h
    · next r key' rest' hq =>
      have hq := Quoted.length_read hq
      split at h
      · simp [fail] at h
      · next heq =>
        have hs := length_skipBlanks_le rest'
        simp only [Except.ok.injEq, Prod.mk.injEq] at h
        rw [heq, h.2] at hs
        simp only [List.length_cons] at hs ⊢
        omega
      · simp [fail] at h
  · simp [failKey] at h

mutual

/-- Reads a value inside the containers of `stack`. -/
def value (stack : List Frame) (cs : List Char) : Except Fault (Node × List Char) :=
  match _h : skipBlanks cs with
  | '[' :: rest =>
    if stack.length < maxDepth then
      match _hr : skipBlanks rest with
      | [] => fail stack ⟨.endInList, 0⟩
      | ']' :: rest => resume (.array []) stack rest
      | c :: rest => value (.items [] :: stack) (c :: rest)
    else fail stack (Stop.here .tooDeep ('[' :: rest))
  | '{' :: rest =>
    if stack.length < maxDepth then
      match _hr : skipBlanks rest with
      | [] => failKey stack ⟨.endInObject, 0⟩
      | '}' :: rest => resume (.object []) stack rest
      | c :: rest => entry [] stack (c :: rest)
    else fail stack (Stop.here .tooDeep ('{' :: rest))
  | cs =>
    match _hr : readScalar cs with
    | .error stop => fail stack stop
    | .ok (n, rest) => resume n stack rest
termination_by cs.length
decreasing_by
  · exact Nat.lt_trans (length_of_skipBlanks_cons _hr) (length_of_skipBlanks_cons _h)
  · exact Nat.lt_of_le_of_lt (length_of_skipBlanks _hr) (length_of_skipBlanks_cons _h)
  · exact Nat.lt_trans (length_of_skipBlanks_cons _hr) (length_of_skipBlanks_cons _h)
  · exact Nat.lt_of_le_of_lt (length_of_skipBlanks _hr) (length_of_skipBlanks_cons _h)
  · exact Nat.lt_of_lt_of_le (length_readScalar _hr) (length_of_skipBlanks _h)

/-- Reads an entry of the object that lies on `below` and has the entries `done` so far. -/
def entry (done : Object) (below : List Frame) (cs : List Char) : Except Fault (Node × List Char) :=
  match _hr : readKey below cs with
  | .error fault => .error fault
  | .ok (key, rest) => value (.entries done key :: below) rest
termination_by cs.length
decreasing_by exact length_readKey _hr

/-- Puts a value that has been read into the innermost container. -/
def resume (v : Node) (stack : List Frame) (cs : List Char) : Except Fault (Node × List Char) :=
  match stack with
  | [] => .ok (v, cs)
  | .items done :: below =>
    match _h : skipBlanks cs with
    | [] => fail below ⟨.endInList, 0⟩
    | ']' :: rest => resume (.array (v :: done).reverse) below rest
    | ',' :: rest =>
      match _hr : skipBlanks rest with
      | [] => fail below ⟨.endInValue, 0⟩
      | ']' :: rest => fail below (Stop.here .trailingComma (']' :: rest))
      | c :: rest => value (.items (v :: done) :: below) (c :: rest)
    | rest => fail below (Stop.here .commaOrBracketExpected rest)
  | .entries done key :: below =>
    match _h : skipBlanks cs with
    | [] => failKey below ⟨.endInObject, 0⟩
    | '}' :: rest => resume (.object (Fields.insert done key v)) below rest
    | ',' :: rest =>
      match _hr : skipBlanks rest with
      | [] => failKey below ⟨.endInValue, 0⟩
      | '}' :: rest => failKey below (Stop.here .trailingComma ('}' :: rest))
      | c :: rest => entry (Fields.insert done key v) below (c :: rest)
    | rest => failKey below (Stop.here .commaOrBraceExpected rest)
termination_by cs.length
decreasing_by
  · exact length_of_skipBlanks_cons _h
  · exact Nat.lt_of_le_of_lt (length_of_skipBlanks _hr) (length_of_skipBlanks_cons _h)
  · exact length_of_skipBlanks_cons _h
  · exact Nat.lt_of_le_of_lt (length_of_skipBlanks _hr) (length_of_skipBlanks_cons _h)

end

end Reader

namespace Node

/-- Reads one value, and gives the text after it. -/
def read (cs : List Char) : Except Fault (Node × List Char) := Reader.value [] cs

/-- The value at the start of a text; what follows it does not matter. -/
def ofStart (text : String) : Except Fault Node := (read text.toList).map (·.1)

/-- The value that a text is, with blanks around it. -/
def ofText (text : String) : Except Fault Node := do
  let (n, rest) ← read text.toList
  match skipBlanks rest with
  | [] => return n
  | rest => throw ⟨[], Stop.here .trailingCharacters rest⟩

end Node

end ConfigSchema
