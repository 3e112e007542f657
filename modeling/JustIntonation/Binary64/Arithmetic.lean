/-
JustIntonation/Binary64/Arithmetic.lean

Arithmetic on double-precision values.

Sum, product and quotient are the exact rational result rounded once, so each
of them is correctly rounded by definition; the rest of each function says
what happens at infinities, zeros and NaNs.  An operation that has no value
gives `undefined`, and a NaN operand is handed on as it is.

The logarithm to base two is exact at the powers of two, infinite at the ends
of its domain and undefined below.  Elsewhere it and the power function are
the machine's.
-/
import JustIntonation.Binary64.Basic

namespace JustIntonation.Binary64

/-- The NaN that an operation without a value gives: the one with the sign bit set. -/
def undefined : Binary64 := nan true

/-! ### The four operations -/

def add (x y : Binary64) : Binary64 :=
  if x.isNaN then x
  else if y.isNaN then y
  else if x.isInfinite then
    if y.isInfinite && x.negative != y.negative then undefined else x
  else if y.isInfinite then y
  else
    let sum := x.toRat + y.toRat
    if sum = 0 then signedZero (x.negative && y.negative) else ofRat sum

def mul (x y : Binary64) : Binary64 :=
  let negative := x.negative != y.negative
  if x.isNaN then x
  else if y.isNaN then y
  else if x.isInfinite then if y.isZero then undefined else infinity negative
  else if y.isInfinite then if x.isZero then undefined else infinity negative
  else rounded negative (x.absRat * y.absRat)

def div (x y : Binary64) : Binary64 :=
  let negative := x.negative != y.negative
  if x.isNaN then x
  else if y.isNaN then y
  else if x.isInfinite then if y.isInfinite then undefined else infinity negative
  else if y.isInfinite then signedZero negative
  else if y.isZero then if x.isZero then undefined else infinity negative
  else rounded negative (x.absRat / y.absRat)

instance : Add Binary64 := ⟨add⟩
instance : Sub Binary64 := ⟨fun x y => x + -y⟩
instance : Mul Binary64 := ⟨mul⟩
instance : Div Binary64 := ⟨div⟩

/-! ### Comparison

By value, NaNs compare with nothing and the two zeros are equal.  The total order has room for
all of them. -/

/-- Where a value that is no NaN stands on the line of values, as an integer that grows with
it. -/
def rank (x : Binary64) : Int := if x.negative then -(x.magnitude : Int) else x.magnitude

/-- `x < y`; false when either is a NaN. -/
def lt (x y : Binary64) : Bool := !x.isNaN && !y.isNaN && x.rank < y.rank

/-- How two values compare; not at all when either is a NaN. -/
def compareValues (x y : Binary64) : Option Ordering :=
  if x.isNaN || y.isNaN then none else some (compareOfLessAndEq x.rank y.rank)

/-- A place in the total order, which puts `-0.0` below `0.0` and NaNs at the ends. -/
def totalRank (x : Binary64) : Int :=
  if x.negative then -(x.magnitude : Int) - 1 else x.magnitude

/-- How two values compare in the total order. -/
def compareTotal (x y : Binary64) : Ordering := compareOfLessAndEq x.totalRank y.totalRank

/-! ### Rounding to integers -/

/-- The integer nearest to a rational, an exact half going to the even neighbour. -/
def nearestEven (q : Rat) : Int :=
  if q < 0 then -(divHalfEven q.num.natAbs q.den : Int) else divHalfEven q.num.natAbs q.den

/-- Apply an integer rounding to a finite value, keeping its sign at zero. -/
def mapInteger (f : Rat → Int) (x : Binary64) : Binary64 :=
  if x.isFinite then rounded x.negative (f x.toRat) else x

/-- The nearest integral value, ties to even. -/
def roundEven (x : Binary64) : Binary64 := mapInteger nearestEven x

/-- The greatest integral value that is not above. -/
def floor (x : Binary64) : Binary64 := mapInteger Rat.floor x

def minInt64 : Int := -0x8000000000000000
def maxInt64 : Int := 0x7FFFFFFFFFFFFFFF

/-- Limit an integer to the signed 64-bit range. -/
def clampInt64 (n : Int) : Int := max minInt64 (min n maxInt64)

/-- The integer part, toward zero, limited to the signed 64-bit range; a NaN counts as zero. -/
def toInt64 (x : Binary64) : Int :=
  if x.isNaN then 0
  else if x.isInfinite then if x.negative then minInt64 else maxInt64
  else clampInt64 (if x.negative then -x.absRat.floor else x.absRat.floor)

/-! ### Machine operations -/

/-- The same value as a machine number. -/
def toFloat (x : Binary64) : Float :=
  Float.ofBits (UInt64.ofNat ((if x.negative then 0x8000000000000000 else 0) + x.magnitude))

/-- The value of a machine number; its NaN is the undefined one. -/
def ofFloat (f : Float) : Binary64 :=
  let bits := f.toBits.toNat
  if f.isNaN then undefined
  else ⟨0x8000000000000000 ≤ bits, bits % 0x8000000000000000, Nat.mod_lt _ (by decide)⟩

/-- The exponent of a positive power of two. -/
def powerOfTwo? (x : Binary64) : Option Int :=
  let units := unitsOf x.magnitude
  if x.isFinite && !x.negative && units = 1 <<< Nat.log2 units then
    some (Nat.log2 units - 1074 : Int)
  else none

/-- The logarithm to base two, exact at powers of two.  Either zero is as far below as infinity is
above, and below zero there is none. -/
def log2 (x : Binary64) : Binary64 :=
  if x.isNaN then x
  else if x.isZero then infinity true
  else if x.negative then undefined
  else if x.isInfinite then x
  else match x.powerOfTwo? with
    | some k => ofInt k
    | none => ofFloat x.toFloat.log2

/-- `x` to the power `y`. -/
def pow (x y : Binary64) : Binary64 := ofFloat (x.toFloat.pow y.toFloat)

end JustIntonation.Binary64
