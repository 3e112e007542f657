/-
JustIntonation/Tuning/Scale.lean

Scales: the octave classes of frequencies, and the scale file text.

An exact frequency is moved into the octave from one up to below two by the
power of two that its own size determines, so no loop is involved.  In a scale
file an exact ratio is written as a fraction and an approximate one in cents,
which its decimal point marks.
-/
import JustIntonation.Music.Measure

namespace JustIntonation.Tuning

/-- The exponent of the power of two that is not above a positive rational and more than half
of it. -/
def octaveOf (q : Rat) : Int :=
  if 1 ≤ q then (Nat.log2 q.floor.natAbs : Int)
  else
    let k := Nat.log2 q⁻¹.ceil.natAbs
    if (2 : Rat) ^ k * q < 1 then -(k + 1 : Int) else -(k : Int)

/-- A frequency moved by octaves into `[1, 2)`; zero stays.  An exact value below zero has no
octave: a program that doubles it until it reaches one does not end.  It stays here too, so that
there is a value for it, but this is not the answer of any such program. -/
def octaveReduce : Number → Number
  | .exact q => if q ≤ 0 then .exact q else .exact (q / (2 : Rat) ^ octaveOf q)
  | .approximate x =>
    if x.isZero then .approximate x else .approximate (x / (2 : Binary64).pow x.log2.floor)

/-- The distinct octave classes of a list of frequencies, ascending. -/
def octaveClasses (frequencies : List Number) : List Number :=
  Number.dedup (Number.sort (frequencies.map octaveReduce))

/-- One entry of a scale file. -/
def entryText : Number → String
  | .exact q => rationalText q
  | .approximate x => (1200 * x.log2).toFixed 5

/-- A scale file: title, number of entries, and the entries. -/
def scaleFile (title : String) (entries : List Number) : String :=
  " " ++ title ++ "\n " ++ toString entries.length ++ "\n!\n"
    ++ String.join (entries.map fun x => " " ++ entryText x ++ "\n")

/-- The entries of a scale that stands by itself: scale files leave out the unison and end on
the octave, so a leading one becomes a closing two. -/
def closed : List Number → List Number
  | [] => []
  | x :: xs => if x.same .one then xs ++ [.exact 2] else x :: xs

end JustIntonation.Tuning

namespace JustIntonation

/-- The distinct octave classes of the frequencies of music, ascending. -/
def Music.scale (music : Music) : List Number := Tuning.octaveClasses music.frequencies

/-- The scale file of music by itself. -/
def Music.standaloneScale (title : String) (music : Music) : String :=
  Tuning.scaleFile title (Tuning.closed music.scale)

end JustIntonation
