/-
JustIntonation/Report.lean

Music for human readers: a nested listing of the notes, and a table of the
intervals between every two frequencies.
-/
import JustIntonation.Music.Measure

namespace JustIntonation

namespace Report

def spaces (n : Nat) : String := String.ofList (List.replicate n ' ')

theorem toList_spaces (n : Nat) : (spaces n).toList = List.replicate n ' ' := String.toList_ofList

/-- The text pushed to the right end of a field. -/
def padLeft (width : Nat) (s : String) : String := spaces (width - s.length) ++ s

/-! ### Listing -/

/-- Cents rounded to three places, ties to even; rests have none. -/
def centsText (n : Note) : String :=
  match n.cents with
  | some cents => ((cents * 1000).roundEven / 1000).format Binary64.general
  | none => "nan"

/-- A note with its volume unless that has the value one. -/
def noteText (n : Note) : String :=
  let volume := if n.volume.value.same .one then "" else ", volume=" ++ n.volume.text
  "Note(frequency=" ++ n.frequency.text ++ ", cents=" ++ centsText n ++ ", duration="
    ++ n.duration.text ++ volume ++ ")"

/-- A bracketed level: its members indented by two more spaces. -/
def block (level : Nat) (opening closing : String) (members : List String) : String :=
  let indent := spaces (2 * level)
  indent ++ opening ++ "\n" ++ String.join members ++ indent ++ closing ++ ",\n"

def noteLine (level : Nat) (n : Note) : String := spaces (2 * level) ++ noteText n ++ ",\n"

def chordLines (level : Nat) (notes : List Note) : String :=
  block level "(" ")" (notes.map (noteLine (level + 1)))

def eventLines (level : Nat) : Event → String
  | .note n => noteLine level n
  | .chord notes => chordLines level notes

def partLines (level : Nat) (p : Part) : String :=
  block level "[" "]" (p.events.map (eventLines (level + 1)))

def pieceLines (level : Nat) (p : Piece) : String :=
  block level "(" ")" (p.parts.map (partLines (level + 1)))

/-! ### Intervals -/

/-- Row `i` holds every frequency divided by the `i`-th. -/
def intervals (frequencies : List Number) : List (List Number) :=
  frequencies.map fun y => frequencies.map fun x => x / y

/-- Cells of one width, two spaces apart. -/
def row (width : Nat) (cells : List String) : String :=
  "  ".intercalate (cells.map (padLeft width))

/-- Between a row's heading and its cells. -/
def border : String := "  | "

/-- The interval table with the frequencies as headings of its rows and columns, an empty line
before and behind it.  All cells and headings are as wide as the widest. -/
def tableText (frequencies : List Number) : String :=
  if frequencies.isEmpty then ""
  else
    let headings := frequencies.map Number.text
    let cells := (intervals frequencies).map fun r => r.map Number.text
    let width := ((headings ++ cells.flatten).map String.length).foldl max 0
    let header := row width headings
    let rule := spaces (width + border.length - 2)
      ++ String.ofList (List.replicate (header.length + 2) '-')
    let rows := (headings.zip cells).map fun (heading, r) =>
      padLeft width heading ++ border ++ row width r
    let lines := ["", spaces (width + border.length) ++ header, rule] ++ rows ++ [""]
    "\n".intercalate lines ++ "\n"

end Report

open Report

/-- The notes one a line, chords and pieces in parentheses, parts in brackets. -/
def Music.listing : Music → String
  | .note n => noteLine 0 n
  | .chord notes => chordLines 0 notes
  | .part p => partLines 0 p
  | .piece p => pieceLines 0 p

/-- The interval table of the distinct frequencies; empty for silence. -/
def Music.intervalTable (music : Music) : String := tableText music.frequencies

end JustIntonation
