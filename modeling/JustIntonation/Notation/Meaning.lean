/-
JustIntonation/Notation/Meaning.lean

The music that a syntax tree stands for.

Every expression becomes a sequence of events: a note or chord literal yields
one, a group yields those of its items in order, and the two operators change
every note of their operand, putting their factors in front of its frequency
or its volume.  Where a literal cannot be evaluated, the fault is located at
it.
-/
import JustIntonation.Fault
import JustIntonation.Music.Basic
import JustIntonation.Notation.Parser

namespace JustIntonation.Notation

/-! ### Literals -/

/-- The number that decimal digits denote.  A text is read into literals of digits only, at least
one in each; what other characters come to here has no meaning. -/
def Literal.number (l : Literal) : Nat :=
  l.text.toList.foldl (fun n c => 10 * n + (c.toNat - '0'.toNat)) 0

/-- The largest integer that a literal may denote. -/
def largestInteger : Nat := 0x7FFFFFFFFFFFFFFF

/-- A fault of the text at a literal. -/
def Literal.fault (source : String) (l : Literal) (message : String) : Fault :=
  .malformed (SyntaxError.locate source l.start message)

/-- The number of a literal, unless it is too large.  Signs and other characters that are no digits
are not looked for, as no text is read into a literal that holds one. -/
def Literal.value (source : String) (l : Literal) : Except Fault Nat :=
  if l.number ≤ largestInteger then .ok l.number
  else .error (l.fault source "integer is too large")

def RatioLiteral.value (source : String) (r : RatioLiteral) : Except Fault Ratio := do
  let n ← r.numerator.value source
  match r.denominator with
  | none => return .ofInt n
  | some literal =>
    let d ← literal.value source
    if h : (d : Int) = 0 then throw (literal.fault source "denominator must not be zero")
    else return .ofTerms n d h

def ProductLiteral.value (source : String) (p : ProductLiteral) : Except Fault Product := do
  return ⟨← p.ratios.mapM (RatioLiteral.value source)⟩

/-- A volume that is left out is the plain ratio one. -/
def volumeOf (source : String) : Option ProductLiteral → Except Fault Quantity
  | some p => do return .product (← p.value source)
  | none => .ok .one

/-! ### Expressions -/

/-- Put factors in front of a note's frequency. -/
def scaleFrequency (factors : Product) (n : Note) : Except Fault Note := do
  return { n with frequency := ← n.frequency.scaled factors }

/-- Put factors in front of a note's volume. -/
def scaleVolume (factors : Product) (n : Note) : Except Fault Note := do
  return { n with volume := ← n.volume.scaled factors }

mutual

def Expr.events (source : String) : Expr → Except Fault (List Event)
  | .note frequency duration volume => do
    let f ← frequency.value source
    let d ← duration.value source
    let v ← volumeOf source volume
    return [.note ⟨.product f, .product d, v⟩]
  | .chord frequencies duration volume => do
    let d ← duration.value source
    let v ← volumeOf source volume
    let notes ← frequencies.mapM fun frequency => do
      return Note.mk (.product (← frequency.value source)) (.product d) v
    return [.chord notes]
  | .group items => Expr.sequenceEvents source items
  | .multiply factor body => do
    let factors ← factor.value source
    let events ← Expr.events source body
    events.mapM (Event.mapNotes (scaleFrequency factors))
  | .amplify body factor => do
    let factors ← factor.value source
    let events ← Expr.events source body
    events.mapM (Event.mapNotes (scaleVolume factors))

def Expr.sequenceEvents (source : String) : List Expr → Except Fault (List Event)
  | [] => .ok []
  | item :: items => do
    let first ← Expr.events source item
    let rest ← Expr.sequenceEvents source items
    return first ++ rest

end

/-- The piece of a tree read from `source`. -/
def Tree.piece (source : String) (tree : Tree) : Except Fault Piece := do
  let parts ← tree.parts.mapM fun items => do
    return Part.mk (← Expr.sequenceEvents source items)
  return ⟨parts⟩

end JustIntonation.Notation

namespace JustIntonation

/-- The piece that a text denotes. -/
def Piece.parse (source : String) : Except Fault Piece :=
  match Notation.Tree.parse source with
  | .ok tree => tree.piece source
  | .error e => .error (.malformed e)

end JustIntonation
