import ConfigSchema.Filter.Basic
import ConfigSchema.Filter.Token

/-!
# Reading filters

The binary operators bind ever tighter in the order `|`, `,`, `//`, `==`. A minus sign binds tighter
than they do, and the accesses that follow a term tighter still. A question mark belongs to the
access or the term right in front of it. The value of an object entry extends over every operator
but the comma. Each parser gives its result with the tokens that are left, which are fewer, so the
recursion is on their number and, for the operators, on how tight they bind.
-/

namespace ConfigSchema

namespace Filter

/-- A result and fewer than `n` tokens. -/
abbrev Fewer (α : Type) (n : Nat) := Option { r : α × List Token // r.2.length < n }

/-- A result and at most `n` tokens. -/
abbrev AtMost (α : Type) (n : Nat) := Option { r : α × List Token // r.2.length ≤ n }

/-- The accesses that follow a term. -/
abbrev Path := List (Access Filter)

structure Operator where
  token : Token
  build : Filter → Filter → Filter

/-- All binary operators, the loosest first. -/
def operators : List Operator :=
  [⟨.pipe, pipe⟩, ⟨.comma, comma⟩, ⟨.alternative, alternative⟩, ⟨.equal, equal⟩]

/-- The binary operators of the value of an object entry. -/
def entryOperators : List Operator :=
  [⟨.pipe, pipe⟩, ⟨.alternative, alternative⟩, ⟨.equal, equal⟩]

def text (s : String) : Filter := constant (.string s)

/-- The step to what lies under a key. -/
def key (s : String) : Selector Filter := .index (text s)

/-- A term, which question marks may follow, with its accesses. -/
def completed (base : Filter) (marked : Bool) (path : Path) : Filter :=
  let base := if marked then attempt base else base
  if path.isEmpty then base else chain base path

def named? : String → Option Filter
  | "null" => some (constant .null)
  | "true" => some (constant (.bool true))
  | "false" => some (constant (.bool false))
  | "empty" => some empty
  | "keys" => some keys
  | "length" => some length
  | _ => none

def applied? : String → Filter → Option Filter
  | "select", f => some (select f)
  | "map", f => some (collect (pipe (chain identity [⟨.each, false⟩]) f))
  | _, _ => none

/-- Whether question marks follow, and the tokens after them. -/
def marks : List Token → Bool × List Token
  | .question :: rest => (true, (marks rest).2)
  | ts => (false, ts)

theorem length_marks_le (ts : List Token) : (marks ts).2.length ≤ ts.length := by
  fun_induction marks ts with
  | case1 rest ih =>
    simp only [List.length_cons]
    omega
  | case2 => simp

/-- Drops a token that must come next. -/
def expect (t : Token) (ts : List Token) :
    Option { rest : List Token // rest.length < ts.length } :=
  match ts with
  | [] => none
  | s :: rest => if s = t then some ⟨rest, by simp⟩ else none

def Fewer.weaken {α : Type} {m n : Nat} (h : m ≤ n) (r : Fewer α m) : Fewer α n :=
  r.map fun r => ⟨r.1, Nat.lt_of_lt_of_le r.2 h⟩

def AtMost.weaken {α : Type} {m n : Nat} (h : m < n) (r : AtMost α m) : Fewer α n :=
  r.map fun r => ⟨r.1, Nat.lt_of_le_of_lt r.2 h⟩

mutual

/-- A filter made with the given operators. -/
def expression (ops : List Operator) (ts : List Token) : Fewer Filter ts.length :=
  match ops with
  | [] => unary ts
  | op :: tighter => do
    let ⟨(left, rest), h⟩ ← expression tighter ts
    (further op tighter left rest).weaken h
termination_by (ts.length, ops.length + 2)

/-- The right operands of an operator, after `left`. -/
def further (op : Operator) (tighter : List Operator) (left : Filter) (ts : List Token) :
    AtMost Filter ts.length :=
  match expect op.token ts with
  | none => some ⟨(left, ts), Nat.le_refl _⟩
  | some ⟨rest, h₁⟩ => do
    let ⟨(right, rest'), h₂⟩ ← expression tighter rest
    let ⟨r, h₃⟩ ← further op tighter (op.build left right) rest'
    return ⟨r, by have : rest'.length < rest.length := h₂; omega⟩
termination_by (ts.length, 0)
decreasing_by
  · exact Prod.Lex.left _ _ h₁
  · exact Prod.Lex.left _ _ (Nat.lt_trans h₂ h₁)

/-- A term with what follows it, maybe negated. -/
def unary (ts : List Token) : Fewer Filter ts.length :=
  match ts with
  | .minus :: rest => do
    let ⟨(f, rest'), h⟩ ← unary rest
    return ⟨(negate f, rest'), Nat.lt_succ_of_lt h⟩
  | ts => do
    let ⟨((base, first), rest), h₁⟩ ← term ts
    let ⟨(more, rest'), h₂⟩ ← accesses (marks rest).2
    return ⟨(completed base (marks rest).1 (first ++ more), rest'),
      Nat.lt_of_le_of_lt (Nat.le_trans h₂ (length_marks_le rest)) h₁⟩
termination_by (ts.length, 1)
decreasing_by
  · exact Prod.Lex.left _ _ (Nat.lt_succ_self _)
  · exact Prod.Lex.right _ (by omega)
  · exact Prod.Lex.left _ _ (Nat.lt_of_le_of_lt (length_marks_le rest) h₁)

/-- A term, and the access that it begins with when it is a point and a key. -/
def term (ts : List Token) : Fewer (Filter × Path) ts.length :=
  match ts with
  | .point :: .text s :: rest =>
    some ⟨((identity, [⟨key s, (marks rest).1⟩]), (marks rest).2), by
      have := length_marks_le rest
      simp only [List.length_cons]
      omega⟩
  | .point :: rest => some ⟨((identity, []), rest), by simp⟩
  | .field s :: rest =>
    some ⟨((identity, [⟨key s, (marks rest).1⟩]), (marks rest).2),
      Nat.lt_succ_of_le (length_marks_le rest)⟩
  | .text s :: rest => some ⟨((text s, []), rest), by simp⟩
  | .number q :: rest => some ⟨((constant (.number q), []), rest), by simp⟩
  | .word w :: .openParen :: rest => do
    let ⟨(f, rest'), h⟩ ← enclosed .closeParen rest
    return ⟨((← applied? w f, []), rest'), by
      have : rest'.length < rest.length := h
      simp only [List.length_cons]
      omega⟩
  | .word w :: rest => do return ⟨((← named? w, []), rest), by simp⟩
  | .openParen :: rest => do
    let ⟨(f, rest'), h⟩ ← enclosed .closeParen rest
    return ⟨((f, []), rest'), Nat.lt_succ_of_lt h⟩
  | .openBracket :: .closeBracket :: rest => some ⟨((collect empty, []), rest), by
    simp only [List.length_cons]
    omega⟩
  | .openBracket :: rest => do
    let ⟨(f, rest'), h⟩ ← enclosed .closeBracket rest
    return ⟨((collect f, []), rest'), Nat.lt_succ_of_lt h⟩
  | .openBrace :: .closeBrace :: rest => some ⟨((object [], []), rest), by
    simp only [List.length_cons]
    omega⟩
  | .openBrace :: rest => do
    let ⟨(entries, rest'), h⟩ ← entries rest
    return ⟨((object entries, []), rest'), Nat.lt_succ_of_lt h⟩
  | _ => none
termination_by (ts.length, 0)

/-- A filter and the closing token after it. -/
def enclosed (close : Token) (ts : List Token) : Fewer Filter ts.length := do
  let ⟨(f, rest), h₁⟩ ← expression operators ts
  let ⟨rest', h₂⟩ ← expect close rest
  return ⟨(f, rest'), Nat.lt_trans h₂ h₁⟩
termination_by (ts.length, operators.length + 3)

/-- The accesses that follow a term. After a point there is a key. -/
def accesses (ts : List Token) : AtMost Path ts.length :=
  match ts with
  | .field s :: rest => do
    let ⟨(path, rest'), h⟩ ← accesses (marks rest).2
    return ⟨(⟨key s, (marks rest).1⟩ :: path, rest'),
      Nat.le_succ_of_le (Nat.le_trans h (length_marks_le rest))⟩
  | .point :: .text s :: rest => do
    let ⟨(path, rest'), h⟩ ← accesses (marks rest).2
    return ⟨(⟨key s, (marks rest).1⟩ :: path, rest'), by
      have : rest'.length ≤ rest.length := Nat.le_trans h (length_marks_le rest)
      simp only [List.length_cons]
      omega⟩
  | .openBracket :: rest => do
    let ⟨(selector, rest'), h₁⟩ ← bracket rest
    let ⟨(path, rest''), h₂⟩ ← accesses (marks rest').2
    return ⟨(⟨selector, (marks rest').1⟩ :: path, rest''), by
      have h₁ : rest'.length < rest.length := h₁
      have h₂ : rest''.length ≤ rest'.length := Nat.le_trans h₂ (length_marks_le rest')
      simp only [List.length_cons]
      omega⟩
  | ts => some ⟨([], ts), Nat.le_refl _⟩
termination_by (ts.length, 0)
decreasing_by
  · have := length_marks_le rest
    exact Prod.Lex.left _ _ (by simp only [List.length_cons]; omega)
  · have := length_marks_le rest
    exact Prod.Lex.left _ _ (by simp only [List.length_cons]; omega)
  · exact Prod.Lex.left _ _ (by simp only [List.length_cons]; omega)
  · have : rest'.length < rest.length := h₁
    have := length_marks_le rest'
    exact Prod.Lex.left _ _ (by simp only [List.length_cons]; omega)

/-- What stands between the brackets of an access, and their end. -/
def bracket (ts : List Token) : Fewer (Selector Filter) ts.length :=
  match ts with
  | .closeBracket :: rest => some ⟨(.each, rest), Nat.lt_succ_self _⟩
  | .colon :: rest => do
    let ⟨(upper, rest'), h⟩ ← enclosed .closeBracket rest
    return ⟨(.piece none (some upper), rest'), Nat.lt_succ_of_lt h⟩
  | ts => do
    let ⟨(f, rest), h₁⟩ ← expression operators ts
    have h₁ : rest.length < ts.length := h₁
    match hr : rest with
    | .closeBracket :: last => return ⟨(.index f, last), by
        simp only [hr, List.length_cons] at h₁ ⊢
        omega⟩
    | .colon :: .closeBracket :: last => return ⟨(.piece (some f) none, last), by
        simp only [hr, List.length_cons] at h₁ ⊢
        omega⟩
    | .colon :: last => do
      let ⟨(upper, last'), h₂⟩ ← enclosed .closeBracket last
      return ⟨(.piece (some f) (some upper), last'), by
        have h₂ : last'.length < last.length := h₂
        simp only [hr, List.length_cons] at h₁ ⊢
        omega⟩
    | _ => none
termination_by (ts.length, operators.length + 4)
decreasing_by
  · exact Prod.Lex.left _ _ (by simp only [List.length_cons]; omega)
  · exact Prod.Lex.right _ (by omega)
  · exact Prod.Lex.left _ _ (by simp only [hr, List.length_cons] at h₁; omega)

/-- The entries of an object and its closing brace. A comma may stand after the last entry. -/
def entries (ts : List Token) : Fewer (List (Filter × Filter)) ts.length := do
  let ⟨(first, rest), h₁⟩ ← entry ts
  have h₁ : rest.length < ts.length := h₁
  match hr : rest with
  | .closeBrace :: last => return ⟨([first], last), by
      simp only [hr, List.length_cons] at h₁ ⊢
      omega⟩
  | .comma :: .closeBrace :: last => return ⟨([first], last), by
      simp only [hr, List.length_cons] at h₁ ⊢
      omega⟩
  | .comma :: last => do
    let ⟨(more, last'), h₂⟩ ← entries last
    return ⟨(first :: more, last'), by
      have h₂ : last'.length < last.length := h₂
      simp only [hr, List.length_cons] at h₁ ⊢
      omega⟩
  | _ => none
termination_by (ts.length, 2)
decreasing_by
  · exact Prod.Lex.right _ (by omega)
  · exact Prod.Lex.left _ _ (by simp only [hr, List.length_cons] at h₁; omega)

/-- An entry of an object. A key alone stands for its own value in the input. -/
def entry (ts : List Token) : Fewer (Filter × Filter) ts.length :=
  match ts with
  | .openParen :: rest => do
    let ⟨(key, rest'), h₁⟩ ← enclosed .closeParen rest
    let ⟨rest'', h₂⟩ ← expect .colon rest'
    let ⟨(f, last), h₃⟩ ← expression entryOperators rest''
    return ⟨((key, f), last), Nat.lt_succ_of_lt (Nat.lt_trans h₃ (Nat.lt_trans h₂ h₁))⟩
  | .word k :: rest => (named k rest).weaken (Nat.lt_succ_self _)
  | .text k :: rest => (named k rest).weaken (Nat.lt_succ_self _)
  | _ => none
termination_by (ts.length, 1)
decreasing_by
  · exact Prod.Lex.left _ _ (Nat.lt_succ_self _)
  · exact Prod.Lex.left _ _ (Nat.lt_succ_of_lt (Nat.lt_trans h₂ h₁))
  · exact Prod.Lex.left _ _ (Nat.lt_succ_self _)
  · exact Prod.Lex.left _ _ (Nat.lt_succ_self _)

/-- An entry after its key. -/
def named (key : String) (ts : List Token) : AtMost (Filter × Filter) ts.length :=
  match ts with
  | .colon :: rest => do
    let ⟨(f, rest'), h⟩ ← expression entryOperators rest
    return ⟨((text key, f), rest'), Nat.le_succ_of_le (Nat.le_of_lt h)⟩
  | ts => some ⟨((text key, chain identity [⟨.index (text key), false⟩]), ts), Nat.le_refl _⟩
termination_by (ts.length, 0)

end

def ofText? (s : String) : Option Filter := do
  let tokens ← Token.all? s.toList
  match ← expression operators tokens with
  | ⟨(f, []), _⟩ => some f
  | _ => none

end Filter

end ConfigSchema
