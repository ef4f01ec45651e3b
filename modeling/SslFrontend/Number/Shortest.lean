import SslFrontend.Number.Binary32

/-! # Shortest decimals

The text of a binary32 number: the fewest digits that read back as the number,
of several such the nearest to it, and of two equally near ones the greater.
The digits stand in positional notation whatever the size of the number, whole
numbers have no fraction, and zero keeps its sign.

For each count of digits the candidates are the value's two neighbours on the
grid of decimals with that many digits.  A candidate reads back when it lies in
the interval of reals that round to the number; the interval's ends belong to
it when the fraction is even.
-/

namespace SslFrontend.Number

/-- A positive real `num / den` with the interval `(num - below) / den` to
`(num + above) / den` of the reals that round to it. -/
structure Interval where
  num : Nat
  den : Nat
  below : Nat
  above : Nat
  /-- Whether the ends belong to the interval. -/
  closed : Bool

namespace Interval

/-- Whether the interval holds `n · 10 ^ exponent`. -/
def holds (range : Interval) (n : Nat) (exponent : Int) : Bool :=
  let (top, bottom) := scaled 10 (n * range.den) 1 exponent
  let low := (range.num - range.below) * bottom
  let high := (range.num + range.above) * bottom
  if range.closed then low ≤ top && top ≤ high else low < top && top < high

/-- The best decimal on the grid of multiples of `10 ^ exponent`. -/
def onGrid? (range : Interval) (exponent : Int) : Option Nat :=
  let (top, bottom) := scaled 10 range.num range.den (-exponent)
  let low := top / bottom
  let nearer := if 2 * (top % bottom) < bottom then low else low + 1
  let farther := if 2 * (top % bottom) < bottom then low + 1 else low
  if range.holds nearer exponent then some nearer
  else if range.holds farther exponent then some farther
  else none

/-- The first grid with a hit, from `exponent` down. -/
def search (range : Interval) : Nat → Int → Nat × Int
  | 0, exponent => ((range.onGrid? exponent).getD 0, exponent)
  | more + 1, exponent =>
    match range.onGrid? exponent with
    | some digits => (digits, exponent)
    | none => range.search more (exponent - 1)

end Interval

end SslFrontend.Number

namespace SslFrontend.Binary32
open Number

/-- The reals that round to a positive finite number.  Below a power of two the
next number is half as far as above it. -/
def interval (x : Binary32) : Interval :=
  let (fraction, exponent) := x.decode
  let isPower := fraction == leadingOne && minExponent < exponent
  let (num, den) := scaled 2 (4 * fraction) 4 exponent
  let unit := (scaled 2 1 1 exponent).1
  { num := num
    den := den
    below := if isPower then unit else 2 * unit
    above := 2 * unit
    closed := fraction % 2 == 0 }

/-- Digits and decimal exponent of the shortest decimal of a positive finite
number.  Nine digits always suffice, and `10 ^ 38` is the greatest power of ten
that a number reaches. -/
def shortest (x : Binary32) : Nat × Int :=
  let range := x.interval
  let leading : Int :=
    match floorLog2 range.num range.den with
    | .ofNat n => (Nat.toDigits 10 (Nat.pow 2 n)).length
    | .negSucc n => 1 - (Nat.toDigits 10 (Nat.pow 2 (n + 1))).length
  range.search 11 (leading + 1)

/-- `digits · 10 ^ exponent` in positional notation. -/
def positional (digits : Nat) (exponent : Int) : String :=
  let chars := Nat.toDigits 10 digits
  match exponent with
  | .ofNat up => String.ofList (chars ++ List.replicate up '0')
  | .negSucc down =>
    let places := down + 1
    let padded := List.replicate (places + 1 - chars.length) '0' ++ chars
    let (whole, tail) := padded.splitAt (padded.length - places)
    String.ofList (whole ++ '.' :: tail)

/-- The number as text. -/
def text (x : Binary32) : String :=
  if x.isNaN then "NaN"
  else
    let sign := if x.isNegative then "-" else ""
    if !x.isFinite then sign ++ "inf"
    else if x.isZero then sign ++ "0"
    else
      let (digits, exponent) := x.shortest
      sign ++ positional digits exponent

example : (ofDecimal 1 (-1)).text = "0.1" := by decide +kernel
example : (ofDecimal 16777216 0).text = "16777216" := by decide +kernel
example : (⟨1⟩ : Binary32).text.length = 47 := by decide +kernel
example : (⟨0x7F7FFFFF⟩ : Binary32).text = "340282350000000000000000000000000000000" := by
  decide +kernel
example : (⟨0x80000000⟩ : Binary32).text = "-0" := by decide +kernel
example : (⟨0x5F800000⟩ : Binary32).text = "18446744000000000000" := by decide +kernel

end SslFrontend.Binary32
