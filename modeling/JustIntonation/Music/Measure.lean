/-
JustIntonation/Music/Measure.lean

How long music lasts, how many notes of it sound at once, and which
frequencies it has.

What is sequential adds up its durations and is as high as its highest
member; what is simultaneous lasts as long as its longest member and adds up
the heights.
-/
import JustIntonation.Music.Basic

namespace JustIntonation

/-! ### Duration -/

def Event.totalDuration : Event → Number
  | .note n => n.duration.value
  | .chord notes => Number.largest (notes.map fun n => n.duration.value)

def Part.totalDuration (p : Part) : Number :=
  (p.events.map Event.totalDuration).foldl (· + ·) Number.zero

def Piece.totalDuration (p : Piece) : Number := Number.largest (p.parts.map Part.totalDuration)

def Music.totalDuration : Music → Number
  | .note n => (Event.note n).totalDuration
  | .chord notes => (Event.chord notes).totalDuration
  | .part p => p.totalDuration
  | .piece p => p.totalDuration

/-! ### Height -/

def Event.height : Event → Nat
  | .note _ => 1
  | .chord notes => notes.length

def Part.height (p : Part) : Nat := (p.events.map Event.height).foldl max 0

def Piece.height (p : Piece) : Nat := (p.parts.map Part.height).foldr (· + ·) 0

def Music.height : Music → Nat
  | .note n => (Event.note n).height
  | .chord notes => (Event.chord notes).height
  | .part p => p.height
  | .piece p => p.height

/-! ### Frequencies -/

/-- The distinct frequencies other than zero, ascending. -/
def Music.frequencies (music : Music) : List Number :=
  Number.distinct ((music.notes.map fun n => n.frequency.value).filter (!·.isZero))

/-- The lowest frequency other than zero; positive infinity for silence. -/
def Music.lowest (music : Music) : Number :=
  music.frequencies.head?.getD (.approximate (.infinity false))

end JustIntonation
