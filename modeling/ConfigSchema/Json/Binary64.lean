/-!
# Finite binary64 numbers

A finite magnitude is numbered by its `rank` in the increasing list of all finite magnitudes; the
rank is the exponent and fraction fields of the usual encoding side by side. Every magnitude is a
whole number of `units` of `2 ^ -1074`, so rounding a quotient is exact integer arithmetic.
`Decimal.rank?` is the magnitude nearest to a decimal number, ties to the even significand, and
`none` when that is beyond the largest finite one.
-/

namespace ConfigSchema

/-- How many fractions a significand can have, `2 ^ 52`. -/
abbrev fractions : Nat := 0x10000000000000

/-- How many finite magnitudes there are: `2 ^ 52` for each exponent field below 2047. -/
abbrev magnitudes : Nat := 0x7FF0000000000000

/-- A finite binary64 number: its sign and the position of its magnitude among all finite
magnitudes. -/
structure Binary64 where
  negative : Bool
  rank : Fin magnitudes
deriving DecidableEq, Repr

namespace Binary64

def zeroRank : Fin magnitudes := ⟨0, by decide⟩

/-- The significand: the fraction field, with the leading bit that normal numbers leave out. -/
def significand (rank : Nat) : Nat :=
  if rank < fractions then rank else fractions + rank % fractions

/-- The power of two that one step of the significand weighs, in units. -/
def scale (rank : Nat) : Nat := rank / fractions - 1

/-- The magnitude in units of `2 ^ -1074`. -/
def units (rank : Nat) : Nat := significand rank <<< scale rank

/-- `num / den` to the nearest integer, a half to the even one. -/
def roundHalfEven (num den : Nat) : Nat :=
  let quotient := num / den
  let twice := 2 * (num % den)
  if twice < den then quotient
  else if den < twice then quotient + 1
  else quotient + quotient % 2

/-- The rank of the magnitude nearest to `num / den`. A significand that rounds up to `2 ^ 53`
carries into the next rank of itself, because ranks are consecutive. -/
def nearestRank (num den : Nat) : Nat :=
  let scale := ((num <<< 1074) / den).log2 - 52
  scale * fractions + roundHalfEven (num <<< 1074) (den <<< scale)

/-- Equality as numbers: the sign of zero does not count. -/
def same (x y : Binary64) : Bool :=
  x.rank == y.rank && (x.negative == y.negative || x.rank.val == 0)

end Binary64

/-- The number `digits * 10 ^ exponent`. -/
structure Decimal where
  digits : Nat
  exponent : Int
deriving DecidableEq, Repr

namespace Decimal

/-- How many digits stand before the decimal point: the value is below `10 ^ point`, and at least
`10 ^ (point - 1)` unless it is zero. -/
def point (d : Decimal) : Int := (Nat.toDigits 10 d.digits).length + d.exponent

/-- The rank of the nearest finite magnitude. Values below `10 ^ -324` are less than half a unit and
values from `10 ^ 309` on are beyond every finite magnitude, whatever their digits; deciding them
first keeps the powers of ten small. -/
def rank? (d : Decimal) : Option (Fin magnitudes) :=
  if d.digits = 0 ∨ d.point ≤ -324 then some Binary64.zeroRank
  else if 310 ≤ d.point then none
  else
    let rank := Binary64.nearestRank (d.digits * Nat.pow 10 d.exponent.toNat)
      (Nat.pow 10 (-d.exponent).toNat)
    if h : rank < magnitudes then some ⟨rank, h⟩ else none

end Decimal

end ConfigSchema
