/-
JustIntonation/Quantity.lean

Frequencies, durations and volumes as they stand on a note: a plain ratio, an
unmultiplied product, or an unevaluated power left by tempering.

Equality is structural, so `3/2*5/4` and `5/4*3/2` differ; `value` compares.
-/
import JustIntonation.Number

namespace JustIntonation

/-- `base ** (steps / divisions)`, kept unevaluated so that a tempered pitch still reads as a
number of steps of an equal division. -/
structure Power where
  base : Int
  steps : Int
  divisions : Int
deriving DecidableEq, Inhabited

namespace Power

def exponent (p : Power) : Binary64 := Binary64.ofInt p.steps / Binary64.ofInt p.divisions

def value (p : Power) : Binary64 := (Binary64.ofInt p.base).pow p.exponent

def log2 (p : Power) : Binary64 := (Binary64.ofInt p.base).log2 * p.exponent

/-- `base**steps/divisions`. -/
def text (p : Power) : String :=
  toString p.base ++ "**" ++ toString p.steps ++ "/" ++ toString p.divisions

end Power

inductive Quantity where
  | ratio (r : Ratio)
  | product (p : Product)
  | power (p : Power)
deriving DecidableEq, Inhabited

namespace Quantity

def one : Quantity := .ratio (.ofInt 1)

def value : Quantity → Number
  | .ratio r => .exact r.value
  | .product p => .exact p.value
  | .power p => .approximate p.value

/-- The logarithm to base two, none for zero.  A power of a positive base takes it from the
exponent, so that a number of steps is not disturbed by evaluating the power. -/
def log2 (q : Quantity) : Option Binary64 :=
  let ofValue := if q.value.isZero then none else some q.value.log2
  match q with
  | .power p => if 0 < p.base then some p.log2 else ofValue
  | _ => ofValue

def text : Quantity → String
  | .ratio r => r.text
  | .product p => p.text
  | .power p => p.text

/-- Put factors in front of a ratio or a product.  A power has no factor list, and the answer
is then that power. -/
def prepend (factors : Product) : Quantity → Except Power Quantity
  | .ratio r => .ok (.product (factors ++ Product.single r))
  | .product p => .ok (.product (factors ++ p))
  | .power p => .error p

end Quantity

end JustIntonation
