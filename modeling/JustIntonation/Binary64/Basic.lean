/-
JustIntonation/Binary64/Basic.lean

Double-precision values as data.

Tempered pitches, tempos and reference frequencies are binary64 numbers.  A
value is stored as a sign and a *magnitude*, the low 63 bits of its encoding.
The encoding is chosen so that magnitudes are ordered as the absolute values
they stand for: finite ones lie below `infinityMagnitude`, the infinity is
that very number, and everything above it is a NaN.

A finite magnitude is an integer number of units of `2⁻¹⁰⁷⁴`, the smallest
subnormal, so

    toRat x = ± units x / 2¹⁰⁷⁴

and rounding a rational (`rounded`) is one division of natural numbers with
ties to even: from `k` binary places above the subnormal grid the magnitude
is `k · 2⁵² + m`, and a carry out of `m` moves to the next `k` by itself.
-/

namespace JustIntonation

/-- A binary64 value: its sign bit and the other 63 bits of its encoding. -/
structure Binary64 where
  negative : Bool
  magnitude : Nat
  magnitude_lt : magnitude < 0x8000000000000000 := by decide
deriving DecidableEq

namespace Binary64

/-! ### Kinds of values -/

/-- The magnitude of the infinities: an exponent of ones and no fraction. -/
def infinityMagnitude : Nat := 0x7FF0000000000000

theorem infinityMagnitude_lt : infinityMagnitude < 0x8000000000000000 := by decide

/-- A value without a numeric meaning. -/
def isNaN (x : Binary64) : Bool := infinityMagnitude < x.magnitude

/-- Either infinity. -/
def isInfinite (x : Binary64) : Bool := x.magnitude = infinityMagnitude

/-- Neither an infinity nor a NaN. -/
def isFinite (x : Binary64) : Bool := x.magnitude < infinityMagnitude

/-- Either zero. -/
def isZero (x : Binary64) : Bool := x.magnitude = 0

/-- The zero of a sign. -/
def signedZero (negative : Bool) : Binary64 := ⟨negative, 0, by decide⟩

def zero : Binary64 := signedZero false

def infinity (negative : Bool) : Binary64 := ⟨negative, infinityMagnitude, infinityMagnitude_lt⟩

/-- The NaN with only the leading fraction bit set. -/
def nan (negative : Bool) : Binary64 := ⟨negative, 0x7FF8000000000000, by decide⟩

instance : Inhabited Binary64 := ⟨zero⟩

/-- The value of opposite sign. -/
def neg (x : Binary64) : Binary64 := { x with negative := !x.negative }

instance : Neg Binary64 := ⟨neg⟩

/-! ### The rational of a finite value -/

/-- The finite magnitude `c` in units of `2⁻¹⁰⁷⁴`.  Below `2⁵³` the two are equal; each
further `2⁵²` magnitudes double the step. -/
def unitsOf (c : Nat) : Nat :=
  let k := (c >>> 52) - 1
  (c - (k <<< 52)) <<< k

/-- The absolute value as a rational; meaningful for finite values. -/
def absRat (x : Binary64) : Rat := mkRat (unitsOf x.magnitude) (1 <<< 1074)

/-- The rational that a finite value stands for; both zeros are `0`. -/
def toRat (x : Binary64) : Rat := if x.negative then -x.absRat else x.absRat

/-! ### Rounding a rational -/

/-- The natural number nearest to `n / d`, an exact half going to the even neighbour. -/
def divHalfEven (n d : Nat) : Nat :=
  let q := n / d
  let r := n % d
  if 2 * r < d then q
  else if d < 2 * r then q + 1
  else if q % 2 = 0 then q else q + 1

/-- The magnitude nearest to `n / d`: with `k` the number of binary places that the value has
above 53 bits of units, the units are rounded to a multiple `m` of `2ᵏ`. -/
def roundMagnitude (n d : Nat) : Nat :=
  let units := n <<< 1074
  let k := Nat.log2 (units / d) - 52
  (k <<< 52) + divHalfEven units (d <<< k)

/-- A value from a sign and a magnitude that may have grown past the finite ones: those are
infinite. -/
def ofMagnitude (negative : Bool) (c : Nat) : Binary64 :=
  ⟨negative, min c infinityMagnitude,
    Nat.lt_of_le_of_lt (Nat.min_le_right _ _) infinityMagnitude_lt⟩

/-- The value nearest to `q` in absolute value, with the given sign.  The sign is kept when
the value rounds to zero. -/
def rounded (negative : Bool) (q : Rat) : Binary64 :=
  ofMagnitude negative (roundMagnitude q.num.natAbs q.den)

/-- The value nearest to a rational, ties to even; zero is positive. -/
def ofRat (q : Rat) : Binary64 := rounded (q < 0) q

/-- The value nearest to an integer. -/
def ofInt (n : Int) : Binary64 := ofRat n

instance (n : Nat) : OfNat Binary64 n := ⟨ofInt n⟩

end Binary64

end JustIntonation
