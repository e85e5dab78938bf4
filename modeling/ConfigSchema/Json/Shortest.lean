import ConfigSchema.Json.Binary64

/-!
# The fewest digits that read back

`shortest rank` is a decimal of the least number of significant digits that `Decimal.rank?` reads
back as `rank`, and the nearest such decimal to the exact value. On the grid of decimals of a given
number of digits, if any point reads back then so does one of the two neighbours of the exact value,
so only those are tried. `Decimal.chars` writes a decimal: positionally up to below `10 ^ 16`, and
then always with a point, and with an exponent elsewhere. Where the small numbers begin and whether
an exponent has a plus sign is left to a `Style`.
-/

namespace ConfigSchema

namespace Binary64

/-- The magnitude in units of `10 ^ -1074`; every finite magnitude is a whole number of them. -/
def exactDigits (rank : Nat) : Nat := units rank * Nat.pow 5 1074

/-- The nearer to the exact value of its two neighbours among the decimals of `count` digits that
read back, if any; of two at the same distance the even one. -/
def neighbour? (rank : Fin magnitudes) (exact length count : Nat) : Option Decimal :=
  let step := Nat.pow 10 (length - count)
  let exponent : Int := (length - count : Nat) - 1074
  let below : Decimal := ⟨exact / step, exponent⟩
  let above : Decimal := ⟨exact / step + 1, exponent⟩
  let twice := 2 * (exact % step)
  let belowIsNearer := twice < step ∨ (twice = step ∧ below.digits % 2 = 0)
  match decide (below.rank? = some rank), decide (above.rank? = some rank) with
  | true, true => some (if belowIsNearer then below else above)
  | true, false => some below
  | false, true => some above
  | false, false => none

/-- A decimal of the fewest digits that reads back, nearest to the magnitude. Seventeen digits are
enough; the exact expansion stands behind them. -/
def shortest (rank : Fin magnitudes) : Decimal :=
  let exact := exactDigits rank
  let length := (Nat.toDigits 10 exact).length
  ((List.range' 1 17).findSome? (neighbour? rank exact length)).getD ⟨exact, -1074⟩

end Binary64

/-- What the layout of a decimal leaves open. -/
structure Style where
  /-- The least exponent of a leading digit that is written positionally. -/
  leastExponent : Int
  /-- Whether an exponent that is not negative has a sign. -/
  plus : Bool
deriving DecidableEq, Repr

namespace Style

def document : Style := ⟨-5, true⟩

/-- The style of the numbers that a filter computes. -/
def computed : Style := ⟨-4, false⟩

end Style

namespace Decimal

/-- `digits` without the zeros at its end. -/
def dropTrailingZeros (digits : List Char) : List Char :=
  (digits.reverse.dropWhile (· == '0')).reverse

/-- Writes significant digits with `point` of them before the decimal point. -/
def positional (digits : List Char) (point : Int) : List Char :=
  if point ≤ 0 then '0' :: '.' :: List.replicate (-point).toNat '0' ++ digits
  else if digits.length ≤ point.toNat then
    digits ++ List.replicate (point.toNat - digits.length) '0' ++ ['.', '0']
  else digits.take point.toNat ++ '.' :: digits.drop point.toNat

/-- Writes significant digits with one before the decimal point and an exponent. -/
def scientific (s : Style) (digits : List Char) (exponent : Int) : List Char :=
  let tail := digits.drop 1
  let sign := if exponent < 0 then ['-'] else if s.plus then ['+'] else []
  digits.take 1 ++ (if tail.isEmpty then [] else '.' :: tail) ++
    'e' :: sign ++ Nat.toDigits 10 exponent.natAbs

def chars (s : Style) (d : Decimal) : List Char :=
  let digits := dropTrailingZeros (Nat.toDigits 10 d.digits)
  if s.leastExponent < d.point ∧ d.point ≤ 16 then positional digits d.point
  else scientific s digits (d.point - 1)

end Decimal

namespace Binary64

/-- The text of a double. Integral values keep a `.0`, and zero its sign. -/
def chars (s : Style) (x : Binary64) : List Char :=
  (if x.negative then ['-'] else []) ++
    if x.rank.val = 0 then ['0', '.', '0'] else (shortest x.rank).chars s

end Binary64

end ConfigSchema
