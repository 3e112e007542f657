/-
JustIntonation/Ratio.lean

Ratios as they are written, and products of them.

A `Ratio` is a pair of integers, not a rational number: `ofTerms` reduces, but
a ratio read from stored notes keeps the terms it was given.  A `Product` is a
sequence of ratios left unmultiplied, because tempering works factor by factor
and a score shows how a pitch was composed.  `value` forgets both and gives
the rational.
-/

namespace JustIntonation

/-- A pair of integers with a denominator that is not zero. -/
structure Ratio where
  num : Int
  den : Int
  den_ne_zero : den ≠ 0 := by decide
deriving DecidableEq

namespace Ratio

/-- The ratio of two integers in lowest terms, its sign on the numerator. -/
def ofTerms (n d : Int) (_h : d ≠ 0) : Ratio :=
  let q := Rat.divInt n d
  ⟨q.num, q.den, by have := q.den_nz; omega⟩

def ofInt (n : Int) : Ratio := ⟨n, 1, by decide⟩

instance : Inhabited Ratio := ⟨ofInt 1⟩

/-- The rational that the ratio stands for. -/
def value (r : Ratio) : Rat := Rat.divInt r.num r.den

/-- `n`, or `n/d` when the denominator is not one. -/
def text (r : Ratio) : String :=
  if r.den = 1 then toString r.num else toString r.num ++ "/" ++ toString r.den

end Ratio

/-- `n`, or `n/d` when the denominator is not one. -/
def rationalText (q : Rat) : String :=
  if q.den = 1 then toString q.num else toString q.num ++ "/" ++ toString q.den

/-- A sequence of ratios to be multiplied.  Equality compares the sequences. -/
structure Product where
  factors : List Ratio
deriving DecidableEq, Inhabited

namespace Product

def single (r : Ratio) : Product := ⟨[r]⟩

/-- Multiplication puts one sequence after the other. -/
def append (p q : Product) : Product := ⟨p.factors ++ q.factors⟩

instance : Append Product := ⟨append⟩

/-- The exact product; `1` for no factors. -/
def value (p : Product) : Rat := p.factors.foldl (fun acc r => acc * r.value) 1

/-- The factors joined by `*`. -/
def text (p : Product) : String := "*".intercalate (p.factors.map Ratio.text)

end Product

end JustIntonation
