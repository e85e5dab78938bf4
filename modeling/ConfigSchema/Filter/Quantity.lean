import ConfigSchema.Json.Numeral

/-!
# Numbers of filters

A filter computes with signed 64-bit integers, which wrap, and with doubles. A number that no such
integer can be is kept as it is written, in the document or in the filter, until something is
computed from it: only then does its double take its place. Doubles may be infinite here, and an
infinite result is written as null.
-/

namespace ConfigSchema

/-- A double, or an infinity. -/
inductive Extended where
  | finite (x : Binary64)
  | infinite (isNegative : Bool)
deriving DecidableEq, Repr

namespace Extended

/-- The nearest double to a signed decimal; beyond the largest one it is infinite. -/
def ofDecimal (isNegative : Bool) (d : Decimal) : Extended :=
  match d.rank? with
  | some rank => finite ⟨isNegative, rank⟩
  | none => infinite isNegative

/-- The nearest double to an integer. -/
def ofInt (i : Int) : Extended := ofDecimal (decide (i < 0)) ⟨i.natAbs, 0⟩

def negated : Extended → Extended
  | finite x => finite { x with negative := !x.negative }
  | infinite isNegative => infinite !isNegative

def absolute : Extended → Extended
  | finite x => finite { x with negative := false }
  | infinite _ => infinite false

/-- Equality as numbers: the sign of zero does not count. -/
def same : Extended → Extended → Bool
  | finite x, finite y => x.same y
  | infinite s, infinite t => s == t
  | _, _ => false

/-- The text of a computed number. -/
def chars : Extended → List Char
  | finite x => x.chars .computed
  | infinite _ => ['n', 'u', 'l', 'l']

end Extended

inductive Quantity where
  | integer (i : Int64)
  | double (x : Extended)
  /-- A number kept as it is written, with its double. -/
  | written (text : String) (x : Extended)
deriving DecidableEq, Repr

namespace Quantity

def chars : Quantity → List Char
  | integer i =>
    let digits := Nat.toDigits 10 i.toInt.natAbs
    if i < 0 then '-' :: digits else digits
  | double x => x.chars
  | written text _ => text.toList

def extended : Quantity → Extended
  | integer i => .ofInt i.toInt
  | double x => x
  | written _ x => x

/-- Equality as numbers: only integers are compared exactly. -/
def same : Quantity → Quantity → Bool
  | integer i, integer j => i == j
  | x, y => x.extended.same y.extended

def negated : Quantity → Quantity
  | integer i => integer (-i)
  | x => double x.extended.negated

def absolute : Quantity → Quantity
  | integer i => integer i.abs
  | x => double x.extended.absolute

/-- A length or an index. -/
def ofCount (n : Nat) : Quantity := integer (.ofNat n)

/-- A natural number, or a number kept as it is written when it is no signed 64-bit integer. -/
def ofNat (n : Nat) (text : List Char) : Quantity :=
  if n < signedLimit then ofCount n else written (String.ofList text) (.ofInt n)

def ofNumber : Number → Quantity
  | .natural n => ofNat n (Number.natural n).chars
  | .negative n => integer (.ofInt (-(n + 1 : Int)))
  | .double x => written (String.ofList (x.chars .document)) (.finite x)

/-- The number that a numeral's parts denote, written as `text`. -/
def ofParts (whole fraction : List Char) (exponent : Option Int) (text : List Char) : Quantity :=
  if fraction.isEmpty && exponent.isNone then ofNat (Nat.ofDigitChars 10 whole 0) text
  else
    written (String.ofList text) (.ofDecimal false
      ⟨Nat.ofDigitChars 10 (whole ++ fraction) 0, exponent.getD 0 - fraction.length⟩)

/-- Reads the numeral at the start of a text that begins with a digit. Unlike in a document, zeros
may lead. -/
def read? (cs : List Char) : Option (Quantity × List Char) :=
  match Numeral.readFraction (cs.dropWhile Char.isDigit) with
  | .error _ => none
  | .ok (fraction, rest) =>
    match Numeral.readExponent false rest with
    | .error _ => none
    | .ok (exponent, rest) =>
      let text := cs.take (cs.length - rest.length)
      some (ofParts (cs.takeWhile Char.isDigit) fraction exponent text, rest)

theorem length_read?_le {cs rest : List Char} {q : Quantity} (h : read? cs = some (q, rest)) :
    rest.length ≤ (cs.dropWhile Char.isDigit).length := by
  unfold read? at h
  split at h
  · simp at h
  next hf =>
  split at h
  · simp at h
  next he =>
  simp only [Option.some.injEq, Prod.mk.injEq] at h
  rw [← h.2]
  exact Nat.le_trans (Numeral.length_readExponent he) (Numeral.length_readFraction hf)

/-! ### Text -/

theorem chars_ofNat {n : Nat} : (ofNat n (Nat.toDigits 10 n)).chars = Nat.toDigits 10 n := by
  unfold ofNat
  split
  · next h =>
    have : (Int64.ofNat n).toInt = n := Int64.toInt_ofNat_of_lt h
    simp [ofCount, chars, Int64.lt_iff_toInt_lt, this]
  · simp [chars]

/-- A number of a document is written as it was there. -/
theorem chars_ofNumber (n : Number) : (ofNumber n).chars = n.chars := by
  cases n with
  | natural n => exact chars_ofNat
  | negative n =>
    have hn : n.val < 0x8000000000000000 := n.isLt
    have hi : (Int64.ofInt (-(n + 1 : Int))).toInt = -(n + 1 : Int) :=
      Int64.toInt_ofInt_of_le (by omega) (by omega)
    have hlt : Int64.ofInt (-(n + 1 : Int)) < 0 := by
      rw [Int64.lt_iff_toInt_lt, hi]
      simp only [Int64.toInt_zero]
      omega
    have ha : (-(n + 1 : Int)).natAbs = n.val + 1 := by omega
    simp only [ofNumber, chars, Number.chars, if_pos hlt, hi, ha]
  | double x => simp [ofNumber, chars, Number.chars]

end Quantity

end ConfigSchema
