import ConfigSchema.Json.Shortest

/-!
# JSON numbers

A numeral without fraction and exponent is an integer as long as it fits 64 bits, unsigned when it
is not negative and signed when it is; every other numeral is a double. The kinds stay apart: `1`
and `1.0` are different numbers, and `-0` is the double of that sign.
-/

namespace ConfigSchema

/-- The first natural number that does not fit an unsigned 64-bit word, `2 ^ 64`. -/
abbrev unsignedLimit : Nat := 0x10000000000000000

/-- The first natural number that does not fit a signed 64-bit word, `2 ^ 63`. -/
abbrev signedLimit : Nat := 0x8000000000000000

inductive Number where
  /-- An unsigned 64-bit integer. -/
  | natural (n : Fin unsignedLimit)
  /-- The signed 64-bit integer `-(n + 1)`. -/
  | negative (n : Fin signedLimit)
  | double (x : Binary64)
deriving DecidableEq, Repr

namespace Number

def chars : Number → List Char
  | natural n => Nat.toDigits 10 n
  | negative n => '-' :: Nat.toDigits 10 (n + 1)
  | double x => x.chars .document

/-- Equality of numbers of one kind; the two zeros among the doubles are equal. -/
def same : Number → Number → Bool
  | natural m, natural n => m == n
  | negative m, negative n => m == n
  | double x, double y => x.same y
  | _, _ => false

/-- The integer `n`, when it is below `2 ^ 64`. -/
def ofNat? (n : Nat) : Option Number :=
  if h : n < unsignedLimit then some (natural ⟨n, h⟩) else none

/-- The integer `-n`, when it is negative and not below `-2 ^ 63`. -/
def ofNegated? (n : Nat) : Option Number :=
  if h : n - 1 < signedLimit ∧ n ≠ 0 then some (negative ⟨n - 1, h.1⟩) else none

/-- The double nearest to a signed decimal, when it is finite. -/
def ofDecimal? (isNegative : Bool) (d : Decimal) : Option Number :=
  d.rank?.map fun rank => double ⟨isNegative, rank⟩

end Number

end ConfigSchema
