/-
JustIntonation/Number.lean

Evaluated numbers: an exact rational, or a double that came out of a tempered
power.

Arithmetic stays exact as long as both operands are.  The order compares by
value across the two kinds: a finite double counts as the rational it stands
for, the infinities lie beyond all rationals and the NaNs beyond the
infinities, on the side of their sign.  Equality of numbers is to compare as
equal (`0.0`, `-0.0` and exact `0` do).
-/
import JustIntonation.Binary64.Arithmetic
import JustIntonation.Binary64.Shortest
import JustIntonation.Ratio

namespace JustIntonation

inductive Number where
  | exact (value : Rat)
  | approximate (value : Binary64)
deriving DecidableEq

namespace Number

instance : Inhabited Number := ⟨.exact 0⟩

def zero : Number := .exact 0
def one : Number := .exact 1

/-- The nearest double. -/
def toBinary64 : Number → Binary64
  | .exact q => .ofRat q
  | .approximate x => x

def isZero : Number → Bool
  | .exact q => q = 0
  | .approximate x => x.isZero

def isExact : Number → Bool
  | .exact _ => true
  | .approximate _ => false

/-! ### Arithmetic -/

def add : Number → Number → Number
  | .exact a, .exact b => .exact (a + b)
  | a, b => .approximate (a.toBinary64 + b.toBinary64)

def mul : Number → Number → Number
  | .exact a, .exact b => .exact (a * b)
  | a, b => .approximate (a.toBinary64 * b.toBinary64)

/-- Exact unless the divisor is an exact zero, which leaves the rationals. -/
def div : Number → Number → Number
  | .exact a, .exact b =>
    if b = 0 then .approximate (Binary64.ofRat a / Binary64.ofRat b) else .exact (a / b)
  | a, b => .approximate (a.toBinary64 / b.toBinary64)

instance : Add Number := ⟨add⟩
instance : Mul Number := ⟨mul⟩
instance : Div Number := ⟨div⟩

/-! ### Logarithm -/

/-- The logarithm to base two of an integer's magnitude.  Beyond 64 bits only the leading 64
are used, the integer being shifted down toward negative infinity. -/
def log2Int (n : Int) : Binary64 :=
  let bits := if n = 0 then 0 else Nat.log2 n.natAbs + 1
  if bits ≤ 64 then (Binary64.ofInt n.natAbs).log2
  else
    let shift := bits - 64
    (Binary64.ofInt (n >>> shift).natAbs).log2 + Binary64.ofInt shift

/-- The logarithm of a rational as a difference, so that large terms keep their precision. -/
def log2Rat (q : Rat) : Binary64 := log2Int q.num - log2Int q.den

def log2 : Number → Binary64
  | .exact q => log2Rat q
  | .approximate x => x.log2

/-! ### Order -/

/-- An exact number against a double: by value if the double is finite, else by its sign. -/
def compareExact (q : Rat) (x : Binary64) : Ordering :=
  if x.isFinite then compareOfLessAndEq q x.toRat
  else if x.negative then .gt
  else .lt

/-- The order by value.  Doubles that do not compare, one being a NaN, stand in the order that
is total on them. -/
def compare : Number → Number → Ordering
  | .exact a, .exact b => compareOfLessAndEq a b
  | .exact a, .approximate y => compareExact a y
  | .approximate x, .exact b => (compareExact b x).swap
  | .approximate x, .approximate y => (x.compareValues y).getD (x.compareTotal y)

/-- Equality by value. -/
def same (a b : Number) : Bool := a.compare b = .eq

def le (a b : Number) : Bool := a.compare b ≠ .gt

/-- Insert into an ascending list without repetition; of equal numbers the one already there
stays. -/
def insert (x : Number) : List Number → List Number
  | [] => [x]
  | y :: ys =>
    match x.compare y with
    | .lt => x :: y :: ys
    | .eq => y :: ys
    | .gt => y :: insert x ys

/-- The distinct numbers of a list, ascending; the first of equal ones stays. -/
def distinct (xs : List Number) : List Number := xs.foldl (fun set x => insert x set) []

/-- A stable ascending sort. -/
def sort (xs : List Number) : List Number := xs.mergeSort le

/-- Drop every number that equals its predecessor. -/
def dedup : List Number → List Number
  | [] => []
  | x :: xs =>
    match dedup xs with
    | [] => [x]
    | y :: ys => if x.same y then x :: ys else x :: y :: ys

/-- The largest number of a list, the last of equal ones; zero for none. -/
def largest : List Number → Number
  | [] => zero
  | x :: xs => xs.foldl (fun best y => if y.compare best = .lt then best else y) x

/-! ### Text -/

/-- The fraction of an exact number, the shortest decimal of an approximate one. -/
def text : Number → String
  | .exact q => rationalText q
  | .approximate x => x.format Binary64.general

end Number

end JustIntonation
