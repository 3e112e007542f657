/-
JustIntonation/Binary64/Shortest.lean

Decimal text of double-precision values.

`shortest` finds the decimal with the fewest significant digits that rounds
back to the given value, and of two such decimals the nearer one; an exact
tie goes to the larger.  It walks through the decimal grids of one to
seventeen digits and tests the two neighbours of the value on each, in exact
arithmetic, so a result reads back by construction.

`Layout` holds the decisions about the written form.  Two layouts are used:
`general`, which shows that a number is no integer and turns to an exponent
for very large and very small values, and `plain`, which is always positional.
`toFixed` writes a given number of decimal places instead.
-/
import JustIntonation.Binary64.Basic

namespace JustIntonation

/-- The positive number `significand · 10^exponent`. -/
structure Decimal where
  significand : Nat
  exponent : Int
deriving DecidableEq

namespace Decimal

def toRat (d : Decimal) : Rat := d.significand * (10 : Rat) ^ d.exponent

/-- Decimal digits of a natural number, at least one. -/
def digits (n : Nat) : List Char := Nat.toDigits 10 n

/-- Number of decimal digits, none for zero. -/
def width (n : Nat) : Nat := if n = 0 then 0 else (digits n).length

/-- The exponent of the leading digit of a positive rational: `10^e ≤ q < 10^(e+1)`. -/
def leading (q : Rat) : Int :=
  if 1 ≤ q then (width q.floor.natAbs : Int) - 1
  else -(width (q⁻¹.ceil.natAbs - 1) : Int)

/-- Move trailing zeros of the significand into the exponent. -/
def stripZeros (d : Decimal) : Decimal :=
  let ds := digits d.significand
  let zeros := (ds.reverse.takeWhile (· = '0')).length
  if d.significand = 0 then d
  else ⟨d.significand / Nat.pow 10 zeros, d.exponent + zeros⟩

end Decimal

namespace Binary64

/-! ### The shortest decimal -/

/-- Whether a positive rational rounds to the given finite magnitude. -/
def roundsTo (magnitude : Nat) (q : Rat) : Bool := roundMagnitude q.num.natAbs q.den = magnitude

/-- The best of the two neighbours of `q` among the multiples of `10^e` that round to the
magnitude: the nearer, and the upper one of two equally near. -/
def nearestOnGrid? (magnitude : Nat) (q : Rat) (e : Int) : Option Decimal :=
  let low : Decimal := ⟨(q / (10 : Rat) ^ e).floor.natAbs, e⟩
  let high : Decimal := ⟨low.significand + 1, e⟩
  let lowFits := low.significand != 0 && roundsTo magnitude low.toRat
  let highFits := roundsTo magnitude high.toRat
  match lowFits, highFits with
  | true, true => some (if q - low.toRat < high.toRat - q then low else high)
  | true, false => some low
  | false, true => some high
  | false, false => none

/-- The decimal for a positive rational on the first grid, from `digits` significant digits
on, that has a point rounding to the magnitude. -/
def shortestFrom (magnitude : Nat) (q : Rat) (top : Int) : Nat → Nat → Option Decimal
  | _, 0 => none
  | digits, fuel + 1 =>
    match nearestOnGrid? magnitude q (top - digits + 1) with
    | some d => some d
    | none => shortestFrom magnitude q top (digits + 1) fuel

/-- The exact decimal expansion of a multiple of `2⁻¹⁰⁷⁴`. -/
def exactDecimal (units : Nat) : Decimal := ⟨units * Nat.pow 5 1074, -1074⟩

/-- The shortest decimal that rounds to a finite magnitude above zero.  Seventeen digits
always suffice; the exact expansion stands behind the search so that nothing is assumed. -/
def shortest (magnitude : Nat) : Decimal :=
  let q := mkRat (unitsOf magnitude) (1 <<< 1074)
  let found := shortestFrom magnitude q (Decimal.leading q) 1 17
  (found.getD (exactDecimal (unitsOf magnitude))).stripZeros

/-! ### Written forms -/

/-- How a finite value is written: from which exponent of its leading digit up to which one
the digits are positional, and whether an integral value shows `.0`.  Outside that range the
form is `d.ddde±x`. -/
structure Layout where
  positional : Int → Bool
  showFraction : Bool

/-- Positional from `10⁻⁴` up to below `10¹⁶`, with a fraction always shown. -/
def general : Layout := ⟨fun e => -4 ≤ e && e < 16, true⟩

/-- Always positional, and an integral value has no point. -/
def plain : Layout := ⟨fun _ => true, false⟩

/-- Digits with the point after `whole` of them, padded with zeros on either side. -/
def pointed (ds : List Char) (whole : Int) : List Char × List Char :=
  if whole ≤ 0 then (['0'], List.replicate whole.natAbs '0' ++ ds)
  else
    let n := whole.toNat
    (ds.take n ++ List.replicate (n - ds.length) '0', ds.drop n)

/-- A positive decimal in a layout. -/
def Layout.digitsText (layout : Layout) (d : Decimal) : String :=
  let ds := Decimal.digits d.significand
  let top : Int := d.exponent + ds.length - 1
  if layout.positional top then
    let (whole, fraction) := pointed ds (top + 1)
    let shown := if fraction.isEmpty && layout.showFraction then ['0'] else fraction
    String.ofList (if shown.isEmpty then whole else whole ++ '.' :: shown)
  else
    let mantissa := match ds with
      | [] => []
      | first :: rest => if rest.isEmpty then [first] else first :: '.' :: rest
    String.ofList mantissa ++ "e" ++ toString top

/-- The text of any value. -/
def format (layout : Layout) (x : Binary64) : String :=
  let sign := if x.negative then "-" else ""
  if x.isNaN then "NaN"
  else if x.isInfinite then sign ++ "inf"
  else if x.isZero then sign ++ (if layout.showFraction then "0.0" else "0")
  else sign ++ layout.digitsText (shortest x.magnitude)

/-- The text with a given number of decimal places, the exact value rounded half to even. -/
def toFixed (places : Nat) (x : Binary64) : String :=
  let sign := if x.negative then "-" else ""
  if x.isNaN then "NaN"
  else if x.isInfinite then sign ++ "inf"
  else
    let n := divHalfEven (unitsOf x.magnitude * Nat.pow 10 places) (1 <<< 1074)
    let ds := Decimal.digits n
    let padded := List.replicate (places + 1 - ds.length) '0' ++ ds
    let whole := padded.take (padded.length - places)
    let fraction := padded.drop (padded.length - places)
    sign ++ String.ofList (if places = 0 then whole else whole ++ '.' :: fraction)

end Binary64

end JustIntonation
