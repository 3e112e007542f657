/-
JustIntonation/Score/Pitch.lean

Note names and deviations from equal temperament.

A pitch is spelled with the nearest of the names that divide the octave, and
a mark for every octave away from the one below middle C.  Its deviation is
measured against the same note tempered to a reference division.
-/
import JustIntonation.Midi.Stroke
import JustIntonation.Temperament

namespace JustIntonation.Score

/-- How many names divide the octave; the finer division tells sharps from flats. -/
inductive Spelling where
  | nineteen
  | twelve
deriving DecidableEq, Inhabited

namespace Spelling

def names : Spelling → List String
  | .nineteen => ["c", "cs", "df", "d", "ds", "ef", "e", "es", "f", "fs", "gf", "g", "gs", "af",
      "a", "as", "bf", "b", "bs"]
  | .twelve => ["c", "cs", "d", "ef", "e", "f", "fs", "g", "af", "a", "bf", "b"]

/-- Number of names in an octave. -/
def size (s : Spelling) : Nat := s.names.length

/-- The name of a number of steps above middle C, with octave marks: names without a mark
belong to the octave below middle C.  An infinite or vanishing frequency is as many steps away as
64 bits hold; its octave marks fit into no memory, so a program that is to write this name is
stopped before it has. -/
def nameOf (s : Spelling) (steps : Int) : String :=
  let octaves := steps / s.size + 1
  let name := s.names.getD (steps % s.size).toNat ""
  name ++ String.ofList (List.replicate octaves.natAbs (if 0 < octaves then '\'' else ','))

/-- The whole number of steps nearest to a frequency in hertz. -/
def stepsTo (s : Spelling) (frequency : Binary64) : Int :=
  (Binary64.ofInt s.size * (frequency / Midi.middleC).log2).roundEven.toInt64

end Spelling

/-- How a rest is written. -/
def restName : String := "r"

/-- The name of a note's pitch. -/
def spell (f0 : Binary64) (s : Spelling) (n : Note) : String :=
  if n.isRest then restName else s.nameOf (s.stepsTo (n.frequency.value.toBinary64 * f0))

/-- Rounded to three decimal places, ties to even. -/
def toThousandths (x : Binary64) : Binary64 := (x * 1000).roundEven / 1000

/-- The whole cents by which a note lies above its tempered self, with a sign; empty for a
rest. -/
def centDeviation (referenceDivisions : Nat) (n : Note) : Except Fault String := do
  match n.cents with
  | none => return ""
  | some cents =>
    let tempered := (← n.temper referenceDivisions).cents.getD cents
    let deviation := (toThousandths cents - toThousandths tempered).roundEven.toInt64
    return (if deviation < 0 then "" else "+") ++ toString deviation

end JustIntonation.Score
