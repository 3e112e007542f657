/-
JustIntonation/Temperament.lean

Equal temperament.

A product of ratios is tempered factor by factor and the steps are summed, so
that the intervals inside a chord do not change when the chord is transposed:
in twelve divisions `<1 5/4 11/8>` is at steps 0, 4 and 6, and
`80/81*<1 5/4 11/8>` is again, although the product `80/81*11/8` by itself
would lie nearer to step 5.
-/
import JustIntonation.Fault
import JustIntonation.Music.Basic

namespace JustIntonation.Temperament

/-- The nearest whole number of steps to an interval in octaves, ties to even. -/
def steps (divisions : Nat) (octaves : Binary64) : Int :=
  (Binary64.ofInt divisions * octaves).roundEven.toInt64

/-- The size of a ratio in octaves, as a difference of logarithms. -/
def ratioOctaves (r : Ratio) : Binary64 :=
  (Binary64.ofInt r.num).log2 - (Binary64.ofInt r.den).log2

/-- The steps of one factor of a product. -/
def factorSteps (divisions : Nat) (r : Ratio) : Int := steps divisions (ratioOctaves r)

/-- The steps of a frequency; none for zero, which is no pitch.  The sum over the factors has no
bound, where a sum of 64-bit integers would have one.  With divisions below `2 ^ 32` and terms below
`2 ^ 63` no factor has `2 ^ 38` steps, so the two differ for more than thirty million factors at
the earliest. -/
def frequencySteps (divisions : Nat) : Quantity → Option Int
  | .product p =>
    if p.value = 0 then none
    else some ((p.factors.map (factorSteps divisions)).foldr (· + ·) 0)
  | q => q.log2.map (steps divisions)

end JustIntonation.Temperament

namespace JustIntonation

open Temperament in
/-- Move a note to the nearest step of an equal division of the octave; a rest stays. -/
def Note.temper (divisions : Nat) (n : Note) : Except Fault Note :=
  if divisions = 0 then .error (.violation .zeroDivisions)
  else match frequencySteps divisions n.frequency with
    | some s => .ok { n with frequency := .power ⟨2, s, divisions⟩ }
    | none => .ok n

/-- Temper every note; without a division the piece stays as written. -/
def Piece.temper (divisions : Option Nat) (p : Piece) : Except Fault Piece :=
  match divisions with
  | none => .ok p
  | some d => p.mapNotes (Note.temper d)

end JustIntonation
