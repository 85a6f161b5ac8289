/-!
# The shortest decimal that reads back

Among the decimals that round to a given binary number, the one with the fewest significant
digits is written; of two such decimals the one nearer to the number, and of two equally near
ones the larger. Numbers are written positionally at every size, without an exponent and without
a fraction when there is none.

All arithmetic is exact. A quantity is a whole number of units of `10 ^ (-places)`, with enough
places for every finite number of the format to be a whole number of units.
-/

namespace ShadowMount.ShortestDecimal

/-- A number together with the decimals that read back as it, all in one decimal unit. -/
structure Span where
  /-- The lower end of what reads back as `value`. -/
  low : Nat
  /-- The number itself. -/
  value : Nat
  /-- The upper end of what reads back as `value`. -/
  high : Nat
  /-- Whether the two ends read back as `value` too. -/
  closed : Bool

namespace Span

/-- Whether `n` reads back as the number. -/
def contains (s : Span) (n : Nat) : Bool :=
  if s.closed then s.low ≤ n && n ≤ s.high else s.low < n && n < s.high

/-- The best multiple of `10 ^ zeros` that reads back, if one does: the nearer of the two
neighbours of the number on that grid, and the upper one on a tie. -/
def onGrid? (s : Span) (zeros : Nat) : Option Nat :=
  let step := Nat.pow 10 zeros
  let below := s.value / step * step
  let above := below + step
  if s.contains below then
    if s.contains above && above - s.value ≤ s.value - below then some above else some below
  else if s.contains above then some above
  else none

/-- The first hit on the grids `10 ^ zeros, …, 10 ^ 1`, and the number itself if there is none. -/
def firstHit (s : Span) : Nat → Nat
  | 0 => s.value
  | zeros + 1 => (s.onGrid? (zeros + 1)).getD (s.firstHit zeros)

/-- The decimal with the fewest significant digits that reads back as the number. -/
def shortest (s : Span) : Nat :=
  s.firstHit ((Nat.toDigits 10 s.value).length - 1)

end Span

/-- A whole number of units of `10 ^ (-places)` in positional notation. -/
def positional (places n : Nat) : String :=
  let one := Nat.pow 10 places
  let fraction := Nat.toDigits 10 (n % one)
  let padded := List.replicate (places - fraction.length) '0' ++ fraction
  let kept := (padded.reverse.dropWhile (· == '0')).reverse
  let whole := String.ofList (Nat.toDigits 10 (n / one))
  if kept.isEmpty then whole else whole ++ "." ++ String.ofList kept

/-! ## Single precision -/

/-- Every finite single-precision number, and every midpoint of two neighbours, is a whole number
of units of `2 ^ (-151)`, hence of `10 ^ (-151)`. -/
def singlePlaces : Nat := 151

/-- The span of the magnitude with the given exponent and fraction fields. The gap below a power
of two is half the gap above it. -/
def singleSpan (exponent fraction : Nat) : Span :=
  let significand := if exponent = 0 then fraction else 0x800000 + fraction
  let unit := Nat.pow 2 (exponent - 1) * Nat.pow 5 singlePlaces
  let gapBelow := if fraction = 0 && 1 < exponent then 1 else 2
  { low := (4 * significand - gapBelow) * unit
    value := 4 * significand * unit
    high := (4 * significand + 2) * unit
    closed := significand % 2 == 0 }

/-- A single-precision number, given by its bits, as text. -/
def ofBinary32 (bits : UInt32) : String :=
  let exponent := bits.toNat / 0x800000 % 0x100
  let fraction := bits.toNat % 0x800000
  let sign := if bits.toNat < 0x80000000 then "" else "-"
  if exponent = 255 then
    if fraction = 0 then sign ++ "inf" else "NaN"
  else if exponent = 0 && fraction = 0 then sign ++ "0"
  else sign ++ positional singlePlaces (singleSpan exponent fraction).shortest

end ShadowMount.ShortestDecimal
