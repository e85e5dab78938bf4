import ConfigSchema.Json.Fault
import ConfigSchema.Json.Number

/-!
# Reading numbers

A numeral is a sign, digits without a superfluous zero in front, and optionally a fraction and an
exponent of at least one digit each. `Number.read` takes the longest numeral and gives its number
together with the rest of the text. An exponent of `2 ^ 31` or more is refused at the digit that
takes it there, unless the number is zero or the exponent negative.
-/

namespace ConfigSchema

namespace Numeral

/-- A run of at least one digit. -/
def readDigits (cs : List Char) : Except Stop (List Char × List Char) :=
  match cs.takeWhile Char.isDigit with
  | [] => .error (Stop.here (if cs.isEmpty then .endInValue else .invalidNumber) cs)
  | ds => .ok (ds, cs.dropWhile Char.isDigit)

/-- The digits in front of the point: a zero stands alone. -/
def readWhole : List Char → Except Stop (List Char × List Char)
  | '0' :: rest =>
    if (rest.takeWhile Char.isDigit).isEmpty then .ok (['0'], rest)
    else .error (Stop.here .invalidNumber rest)
  | cs => readDigits cs

/-- The digits after the point; without a point there are none. -/
def readFraction : List Char → Except Stop (List Char × List Char)
  | '.' :: rest => readDigits rest
  | cs => .ok ([], cs)

/-- The digits of an exponent, added to the ones read so far. -/
def readMagnitude (bounded : Bool) (soFar : Nat) : List Char → Except Stop (Nat × List Char)
  | [] => .ok (soFar, [])
  | c :: rest =>
    if c.isDigit then
      let next := soFar * 10 + (c.toNat - '0'.toNat)
      if next < 0x80000000 then readMagnitude bounded next rest
      else if bounded then .error (Stop.here .numberOutOfRange (c :: rest))
      else .ok (next, rest.dropWhile Char.isDigit)
    else .ok (soFar, c :: rest)

/-- The signed exponent after its letter; `significant` says that the number is not zero. -/
def readSigned (significant : Bool) (cs : List Char) : Except Stop (Int × List Char) := do
  let (isNegative, digits) := match cs with
    | '+' :: rest => (false, rest)
    | '-' :: rest => (true, rest)
    | _ => (false, cs)
  let _ ← readDigits digits
  let (magnitude, rest) ← readMagnitude (significant && !isNegative) 0 digits
  return (if isNegative then -(magnitude : Int) else magnitude, rest)

/-- The exponent, if there is one. -/
def readExponent (significant : Bool) : List Char → Except Stop (Option Int × List Char)
  | [] => .ok (none, [])
  | c :: rest =>
    if c = 'e' ∨ c = 'E' then (readSigned significant rest).map fun r => (some r.1, r.2)
    else .ok (none, c :: rest)

/-- The number that a numeral's parts denote, unless it is too large for a double. -/
def value? (isNegative : Bool) (whole fraction : List Char) (exponent : Option Int) :
    Option Number :=
  let n := Nat.ofDigitChars 10 whole 0
  let decimal : Decimal :=
    ⟨Nat.ofDigitChars 10 (whole ++ fraction) 0, exponent.getD 0 - fraction.length⟩
  let integer := if isNegative then Number.ofNegated? n else Number.ofNat? n
  if fraction.isEmpty && exponent.isNone then
    integer.or (Number.ofDecimal? isNegative decimal)
  else Number.ofDecimal? isNegative decimal

/-- The number after its sign. -/
def readUnsigned (isNegative : Bool) (cs : List Char) : Except Stop (Number × List Char) := do
  let (whole, cs) ← readWhole cs
  let (fraction, cs) ← readFraction cs
  let (exponent, cs) ← readExponent ((whole ++ fraction).any (· != '0')) cs
  match value? isNegative whole fraction exponent with
  | some n => return (n, cs)
  | none => throw (Stop.before .numberOutOfRange cs)

end Numeral

/-- The number at the start of a text, and the text after it. -/
def Number.read : List Char → Except Stop (Number × List Char)
  | '-' :: rest => Numeral.readUnsigned true rest
  | cs => Numeral.readUnsigned false cs

/-! ### Reading shortens the text -/

namespace Numeral

theorem length_dropWhile_le (p : Char → Bool) (cs : List Char) :
    (cs.dropWhile p).length ≤ cs.length :=
  (List.dropWhile_sublist p).length_le

theorem length_readDigits {cs rest ds : List Char} (h : readDigits cs = .ok (ds, rest)) :
    rest.length < cs.length := by
  unfold readDigits at h
  split at h
  · simp at h
  · next hne =>
    simp only [Except.ok.injEq, Prod.mk.injEq] at h
    obtain ⟨-, rfl⟩ := h
    cases cs with
    | nil => simp at hne
    | cons c cs =>
      by_cases hc : c.isDigit
      · have := length_dropWhile_le Char.isDigit cs
        simp only [List.dropWhile, hc, List.length_cons]
        omega
      · simp [List.takeWhile, hc] at hne

theorem length_readWhole {cs rest ds : List Char} (h : readWhole cs = .ok (ds, rest)) :
    rest.length < cs.length := by
  unfold readWhole at h
  split at h
  · split at h
    · simp only [Except.ok.injEq, Prod.mk.injEq] at h
      simp [h.2]
    · simp at h
  · exact length_readDigits h

theorem length_readFraction {cs rest ds : List Char} (h : readFraction cs = .ok (ds, rest)) :
    rest.length ≤ cs.length := by
  unfold readFraction at h
  split at h
  · have := length_readDigits h
    simp only [List.length_cons]
    omega
  · simp only [Except.ok.injEq, Prod.mk.injEq] at h
    simp [h.2]

theorem length_readMagnitude {bounded : Bool} {soFar n : Nat} {cs rest : List Char}
    (h : readMagnitude bounded soFar cs = .ok (n, rest)) : rest.length ≤ cs.length := by
  induction cs generalizing soFar with
  | nil => simp_all [readMagnitude]
  | cons c cs ih =>
    simp only [readMagnitude] at h
    split at h
    · split at h
      · have := ih h
        simp only [List.length_cons]
        omega
      · split at h
        · simp at h
        · simp only [Except.ok.injEq, Prod.mk.injEq] at h
          have := length_dropWhile_le Char.isDigit cs
          rw [← h.2]
          simp only [List.length_cons]
          omega
    · simp only [Except.ok.injEq, Prod.mk.injEq] at h
      simp [← h.2]

theorem length_readSigned {significant : Bool} {cs rest : List Char} {e : Int}
    (h : readSigned significant cs = .ok (e, rest)) : rest.length ≤ cs.length := by
  unfold readSigned at h
  simp only [bind, Except.bind] at h
  split at h
  · simp at h
  · split at h
    · simp at h
    · next _ _ _ _ hm =>
      simp only [pure, Except.pure, Except.ok.injEq, Prod.mk.injEq] at h
      have hl := length_readMagnitude hm
      rw [h.2] at hl
      revert hl
      split <;> simp <;> omega

theorem length_readExponent {significant : Bool} {cs rest : List Char} {e : Option Int}
    (h : readExponent significant cs = .ok (e, rest)) : rest.length ≤ cs.length := by
  cases cs with
  | nil => simp_all [readExponent]
  | cons c cs =>
    simp only [readExponent] at h
    split at h
    · cases hs : readSigned significant cs with
      | error s => simp [hs, Except.map] at h
      | ok r =>
        have : r.2.length ≤ cs.length := length_readSigned hs
        simp only [hs, Except.map, Except.ok.injEq, Prod.mk.injEq] at h
        rw [← h.2]
        simp only [List.length_cons]
        omega
    · simp only [Except.ok.injEq, Prod.mk.injEq] at h
      simp [← h.2]

theorem length_readUnsigned {isNegative : Bool} {cs rest : List Char} {n : Number}
    (h : readUnsigned isNegative cs = .ok (n, rest)) : rest.length < cs.length := by
  unfold readUnsigned at h
  simp only [bind, Except.bind] at h
  split at h
  · simp at h
  next hw =>
  split at h
  · simp at h
  next hf =>
  split at h
  · simp at h
  next he =>
  have hw := length_readWhole hw
  have hf := length_readFraction hf
  have he := length_readExponent he
  split at h
  · simp only [pure, Except.pure, Except.ok.injEq, Prod.mk.injEq] at h
    rw [← h.2]
    omega
  · simp [throw, throwThe, MonadExceptOf.throw] at h

end Numeral

theorem Number.length_read {cs rest : List Char} {n : Number} (h : read cs = .ok (n, rest)) :
    rest.length < cs.length := by
  unfold read at h
  split at h
  · have := Numeral.length_readUnsigned h
    simp only [List.length_cons]
    omega
  · exact Numeral.length_readUnsigned h

end ConfigSchema
