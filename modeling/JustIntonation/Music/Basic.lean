/-
JustIntonation/Music/Basic.lean

Music: simultaneous parts, each a sequence of notes and chords.

Frequencies, durations and volumes are ratios of units that are chosen when
music is put out: a frequency of `5/4` sounds at five quarters of the basic
frequency.  A frequency of zero is a rest.

`Piece.mapNotes` rebuilds a piece with an effectful function of every note,
in document order.  Tempering and both operators of the notation are such
traversals.
-/
import JustIntonation.Quantity

namespace JustIntonation

structure Note where
  frequency : Quantity
  duration : Quantity
  volume : Quantity
deriving DecidableEq, Inhabited

namespace Note

/-- A rest of the given duration at unit volume. -/
def rest (duration : Quantity) : Note := ⟨.ratio (.ofInt 0), duration, .one⟩

def isRest (n : Note) : Bool := n.frequency.value.isZero

/-- Cents above the basic frequency; none for a rest. -/
def cents (n : Note) : Option Binary64 := n.frequency.log2.map fun octaves => 1200 * octaves

end Note

/-- One step of a part: a note, or notes that sound together. -/
inductive Event where
  | note (n : Note)
  | chord (notes : List Note)
deriving DecidableEq, Inhabited

def Event.notes : Event → List Note
  | .note n => [n]
  | .chord notes => notes

structure Part where
  events : List Event
deriving DecidableEq, Inhabited

structure Piece where
  parts : List Part
deriving DecidableEq, Inhabited

def Part.isEmpty (p : Part) : Bool := p.events.isEmpty

/-- Whether no part holds any event. -/
def Piece.isEmpty (p : Piece) : Bool := p.parts.all Part.isEmpty

/-! ### Traversal -/

variable {m : Type → Type} [Monad m]

def Event.mapNotes (f : Note → m Note) : Event → m Event
  | .note n => do return .note (← f n)
  | .chord notes => do return .chord (← notes.mapM f)

def Part.mapNotes (f : Note → m Note) (p : Part) : m Part := do
  return ⟨← p.events.mapM (Event.mapNotes f)⟩

def Piece.mapNotes (f : Note → m Note) (p : Piece) : m Piece := do
  return ⟨← p.parts.mapM (Part.mapNotes f)⟩

/-! ### Levels -/

/-- Any level of the music. -/
inductive Music where
  | note (n : Note)
  | chord (notes : List Note)
  | part (p : Part)
  | piece (p : Piece)

def Event.toMusic : Event → Music
  | .note n => .note n
  | .chord notes => .chord notes

/-- The members one level down; a note has none. -/
def Music.children : Music → List Music
  | .note _ => []
  | .chord notes => notes.map .note
  | .part p => p.events.map Event.toMusic
  | .piece p => p.parts.map .part

/-- The notes of any level, in document order. -/
def Music.notes : Music → List Note
  | .note n => [n]
  | .chord notes => notes
  | .part p => p.events.flatMap Event.notes
  | .piece p => p.parts.flatMap fun part => part.events.flatMap Event.notes

end JustIntonation
