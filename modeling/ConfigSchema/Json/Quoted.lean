import ConfigSchema.Json.Fault

/-!
# Quoted text

`encode` writes a text between quotes: only the quote, the backslash and the characters below
U+0020 are escaped. `read` reads what follows an opening quote, up to the closing one. It takes
every escape of JSON, so many spellings denote one text; a character outside the basic plane is
spelled by its two surrogates, and a surrogate that stands alone is refused.
-/

namespace ConfigSchema

namespace Quoted

/-- One character between quotes. -/
def escape (c : Char) : List Char :=
  if c = '"' then ['\\', '"']
  else if c = '\\' then ['\\', '\\']
  else if c = '\n' then ['\\', 'n']
  else if c = '\r' then ['\\', 'r']
  else if c = '\t' then ['\\', 't']
  else if c = '\x08' then ['\\', 'b']
  else if c = '\x0c' then ['\\', 'f']
  else if c.toNat < 0x20 then
    ['\\', 'u', '0', '0', Nat.digitChar (c.toNat / 16), Nat.digitChar (c.toNat % 16)]
  else [c]

/-- A text between quotes. -/
def encode (cs : List Char) : List Char := '"' :: cs.flatMap escape ++ ['"']

def hexDigit? (c : Char) : Option Nat :=
  if c.isDigit then some (c.toNat - '0'.toNat)
  else if 'a' ≤ c ∧ c ≤ 'f' then some (c.toNat - 'a'.toNat + 10)
  else if 'A' ≤ c ∧ c ≤ 'F' then some (c.toNat - 'A'.toNat + 10)
  else none

/-- The 16-bit unit spelled by four hexadecimal digits. -/
def hexUnit? (a b c d : Char) : Option Nat := do
  return (((← hexDigit? a) * 16 + (← hexDigit? b)) * 16 + (← hexDigit? c)) * 16 + (← hexDigit? d)

/-- Reads four hexadecimal digits. Four bytes are read before they are looked at. -/
def readUnit : List Char → Except Stop (Nat × List Char)
  | a :: b :: c :: d :: rest =>
    match hexUnit? a b c d with
    | some n => .ok (n, rest)
    | none => .error ⟨.invalidEscape, byteLength (a :: b :: c :: d :: rest) - 4⟩
  | cs =>
    if byteLength cs < 4 then .error ⟨.endInText, 0⟩
    else .error ⟨.invalidEscape, byteLength cs - 4⟩

/-- A unit that must be followed by a trailing surrogate. -/
def IsLeading (unit : Nat) : Prop := 0xD800 ≤ unit ∧ unit ≤ 0xDBFF

/-- A unit that must follow a leading surrogate. -/
def IsTrailing (unit : Nat) : Prop := 0xDC00 ≤ unit ∧ unit ≤ 0xDFFF

instance (unit : Nat) : Decidable (IsLeading unit) := inferInstanceAs (Decidable (_ ∧ _))
instance (unit : Nat) : Decidable (IsTrailing unit) := inferInstanceAs (Decidable (_ ∧ _))

/-- The character that two surrogates spell. -/
def ofSurrogates (leading trailing : Nat) : Char :=
  Char.ofNat (0x10000 + (leading - 0xD800) * 0x400 + (trailing - 0xDC00))

/-- Reads the escape of the trailing surrogate that `leading` needs. -/
def readTrailing (leading : Nat) : List Char → Except Stop (Char × List Char)
  | [] => .error ⟨.endInText, 0⟩
  | ['\\'] => .error ⟨.endInText, 0⟩
  | '\\' :: 'u' :: rest => do
    let (unit, rest) ← readUnit rest
    if IsTrailing unit then return (ofSurrogates leading unit, rest)
    else throw (Stop.before .loneSurrogate rest)
  | '\\' :: rest => .error (Stop.here .hexEscapeEnds rest)
  | rest => .error (Stop.here .hexEscapeEnds rest)

/-- Reads the digits of a `\u` escape, and those of its second half when there is one. -/
def readCodePoint (cs : List Char) : Except Stop (Char × List Char) := do
  let (unit, rest) ← readUnit cs
  if IsTrailing unit then throw (Stop.before .loneSurrogate rest)
  else if IsLeading unit then readTrailing unit rest
  else return (Char.ofNat unit, rest)

/-- The character that a one-letter escape stands for. -/
def named? : Char → Option Char
  | '"' => some '"'
  | '\\' => some '\\'
  | '/' => some '/'
  | 'b' => some '\x08'
  | 'f' => some '\x0c'
  | 'n' => some '\n'
  | 'r' => some '\r'
  | 't' => some '\t'
  | _ => none

def readEscape : List Char → Except Stop (Char × List Char)
  | [] => .error ⟨.endInText, 0⟩
  | 'u' :: rest => readCodePoint rest
  | c :: rest =>
    match named? c with
    | some d => .ok (d, rest)
    | none => .error (Stop.here .invalidEscape (c :: rest))

/-! ### Reading shortens the text -/

theorem length_readUnit {cs rest : List Char} {n : Nat} (h : readUnit cs = .ok (n, rest)) :
    rest.length < cs.length := by
  unfold readUnit at h
  split at h
  · split at h
    · simp only [Except.ok.injEq, Prod.mk.injEq] at h
      simp only [h.2, List.length_cons]
      omega
    · simp at h
  · split at h <;> simp at h

theorem length_readTrailing {leading : Nat} {cs rest : List Char} {c : Char}
    (h : readTrailing leading cs = .ok (c, rest)) : rest.length < cs.length := by
  unfold readTrailing at h
  split at h
  · simp at h
  · simp at h
  · simp only [bind, Except.bind] at h
    split at h
    · simp at h
    next hu =>
    have hu := length_readUnit hu
    split at h
    · simp only [pure, Except.pure, Except.ok.injEq, Prod.mk.injEq] at h
      simp only [← h.2, List.length_cons]
      omega
    · simp [throw, throwThe, MonadExceptOf.throw] at h
  · simp at h
  · simp at h

theorem length_readCodePoint {cs rest : List Char} {c : Char}
    (h : readCodePoint cs = .ok (c, rest)) : rest.length < cs.length := by
  unfold readCodePoint at h
  simp only [bind, Except.bind] at h
  split at h
  · simp at h
  next hu =>
  have hu := length_readUnit hu
  split at h
  · simp [throw, throwThe, MonadExceptOf.throw] at h
  · split at h
    · have := length_readTrailing h
      omega
    · simp only [pure, Except.pure, Except.ok.injEq, Prod.mk.injEq] at h
      rw [← h.2]
      exact hu

theorem length_readEscape {cs rest : List Char} {c : Char} (h : readEscape cs = .ok (c, rest)) :
    rest.length < cs.length := by
  unfold readEscape at h
  split at h
  · simp at h
  · have := length_readCodePoint h
    simp only [List.length_cons]
    omega
  · split at h
    · simp only [Except.ok.injEq, Prod.mk.injEq] at h
      simp [h.2]
    · simp at h

/-! ### A whole text -/

/-- Reads up to the closing quote; `done` holds the characters read so far, the last one first. -/
def readFrom (done : List Char) (cs : List Char) : Except Stop (String × List Char) :=
  match cs with
  | [] => .error ⟨.endInText, 0⟩
  | '"' :: rest => .ok (String.ofList done.reverse, rest)
  | '\\' :: escaped =>
    match _h : readEscape escaped with
    | .error stop => .error stop
    | .ok (c, rest) => readFrom (c :: done) rest
  | c :: rest =>
    if c.toNat < 0x20 then .error (Stop.here .controlCharacter (c :: rest))
    else readFrom (c :: done) rest
termination_by cs.length
decreasing_by
  · have := length_readEscape _h
    simp only [List.length_cons]
    omega
  · simp

/-- Reads the text after an opening quote, and the closing quote. -/
def read (cs : List Char) : Except Stop (String × List Char) := readFrom [] cs

theorem length_readFrom {done cs rest : List Char} {s : String}
    (h : readFrom done cs = .ok (s, rest)) : rest.length < cs.length := by
  fun_induction readFrom done cs with
  | case1 => simp at h
  | case2 done r =>
    simp only [Except.ok.injEq, Prod.mk.injEq] at h
    simp [h.2]
  | case3 => simp at h
  | case4 done escaped c r hr ih =>
    have := ih h
    have := length_readEscape hr
    simp only [List.length_cons]
    omega
  | case5 => simp at h
  | case6 done c r _ _ _ ih =>
    have := ih h
    simp only [List.length_cons]
    omega

theorem length_read {cs rest : List Char} {s : String} (h : read cs = .ok (s, rest)) :
    rest.length < cs.length := length_readFrom h

end Quoted

end ConfigSchema
