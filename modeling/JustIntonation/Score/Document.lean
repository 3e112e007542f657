/-
JustIntonation/Score/Document.lean

Scores in the LilyPond language: one staff per part.

Every note carries its deviation in cents above it and the ratios that its
frequency was built from below it:

    e'4 $(cents "-14") $(ratios "1" "5/4")

A tempered frequency has no ratios.  A chord writes its members from low to
high and splits their ratios into the factors that all of them begin with and
what follows those.
-/
import JustIntonation.Music.Measure
import JustIntonation.Score.Duration
import JustIntonation.Score.Pitch
import JustIntonation.Text.Whitespace

namespace JustIntonation.Score

/-- What a score is made with. -/
structure Options where
  /-- Frequency in hertz of the ratio one. -/
  f0 : Binary64 := Midi.middleC
  /-- The equal division that deviations are measured from. -/
  referenceDivisions : Nat := 12
  spelling : Spelling := .nineteen

/-! ### Annotations -/

def doubleQuoted (s : String) : String := "\"" ++ s ++ "\""

/-- A call of an annotation macro with quoted arguments. -/
def call (name : String) (arguments : List String) : String :=
  "$(" ++ name ++ " " ++ " ".intercalate (arguments.map doubleQuoted) ++ ")"

/-- The factors of a frequency that is not tempered. -/
def factorsOf : Quantity → Option (List Ratio)
  | .ratio r => some [r]
  | .product p => some p.factors
  | .power _ => none

/-- The product of all factors but the last, and the last; one for what is missing. -/
def splitLast (factors : List Ratio) : Rat × Rat :=
  (Product.value ⟨factors.dropLast⟩, (factors.getLast?.map Ratio.value).getD 1)

/-- How many leading ratios two lists share; ratios are compared by value. -/
def sharedCount : List Ratio → List Ratio → Nat
  | a :: as, b :: bs => if a.value = b.value then sharedCount as bs + 1 else 0
  | _, _ => 0

/-- How many leading ratios all lists share. -/
def sharedByAll : List (List Ratio) → Nat
  | [] => 0
  | first :: rest => rest.foldl (fun n other => min n (sharedCount first other)) first.length

/-- The product of the shared leading factors, and for each member that of the others. -/
def splitShared (members : List (List Ratio)) : Rat × List Rat :=
  let shared := sharedByAll members
  (Product.value ⟨(members.headD []).take shared⟩,
    members.map fun factors => Product.value ⟨factors.drop shared⟩)

/-- The annotation of a note or chord: deviations, and ratios if there are any. -/
def remark (deviations : List String) (ratios : Option (Rat × List Rat)) : String :=
  let ratiosText := match ratios with
    | some (base, others) => call "ratios" (rationalText base :: others.map rationalText)
    | none => ""
  " " ++ call "cents" deviations ++ " " ++ ratiosText ++ " "

/-! ### Events -/

def note (options : Options) (n : Note) : Except Fault String := do
  let template ← Template.ofDuration n.duration
  if n.isRest then return template.render " " restName ""
  let deviation ← centDeviation options.referenceDivisions n
  let ratios := (factorsOf n.frequency).map fun factors =>
    let (base, last) := splitLast factors
    (base, [last])
  let name := spell options.f0 options.spelling n
  return Text.trim (template.render "~" name (remark [deviation] ratios))

/-- Chord members from low to high, rests first. -/
def ascending (notes : List Note) : List Note :=
  let rank (n : Note) := (n.cents.getD (.infinity true)).totalRank
  notes.mergeSort fun a b => rank a ≤ rank b

/-- A chord; an empty one is written as nothing. -/
def chord (options : Options) (notes : List Note) : Except Fault String := do
  match notes with
  | [] => return ""
  | first :: _ =>
    let template ← Template.ofDuration first.duration
    let members := ascending notes
    let deviations ← members.mapM (centDeviation options.referenceDivisions)
    let ratios := (members.mapM fun n => factorsOf n.frequency).map splitShared
    let names := members.map (spell options.f0 options.spelling)
    let body := "<" ++ " ".intercalate names ++ ">"
    return Text.trim (template.render "~" body (remark deviations ratios))

def event (options : Options) : Event → Except Fault String
  | .note n => note options n
  | .chord notes => chord options notes

/-! ### Staves and scores -/

def indentation (level : Nat) : String := String.ofList (List.replicate (2 * level) ' ')

/-- Whether a part reaches down to half of the basic frequency. -/
def usesBassClef (p : Part) : Bool := (Music.part p).lowest.le (.exact (1 / 2))

/-- The lines of a staff: the clef and the events that are not empty. -/
def staffLines (options : Options) (p : Part) : Except Fault (List String) := do
  let events ← p.events.mapM (event options)
  let clef := if usesBassClef p then ["\\clef bass"] else []
  return clef ++ events.filter (!·.isEmpty)

/-- A staff, indented by two spaces a level. -/
def staff (options : Options) (level : Nat) (p : Part) : Except Fault String := do
  let lines ← staffLines options p
  let indent := indentation level
  return "\n".intercalate
    ([indent ++ "\\new Staff\x7b"] ++ lines.map (indentation (level + 1) ++ ·)
      ++ [indent ++ "\x7d"])

/-- The macro that writes deviations above a note. -/
def centsMacro : List String :=
  ["#(define (cents . args) #\x7b",
   "    ^\\markup\x7b",
   "        \\teeny",
   "        \\override #'(baseline-skip . 1.4)",
   "        \\with-color \"gray\"",
   "        \\center-column \x7b",
   "            $(reverse args)",
   "        \x7d",
   "    \x7d",
   "#\x7d)",
   ""]

/-- The macro that writes ratios below a note. -/
def ratiosMacro : List String :=
  ["#(define (ratios . args) #\x7b",
   "    _\\markup\x7b",
   "        \\teeny",
   "        \\override #'(baseline-skip . 1.4)",
   "        \\center-column \x7b",
   "            \\with-color \"blueviolet\" $(reverse (cdr args))",
   "            \\with-color \"orangered\" $(car args)",
   "        \x7d",
   "    \x7d",
   "#\x7d)",
   ""]

/-- The document before its staves. -/
def opening : List String :=
  ["\\version \"2.22.2\"", "\\language \"english\"", ""] ++ centsMacro ++ ratiosMacro
    ++ ["\\score \x7b", "  <<"]

/-- The document after its staves. -/
def closing : List String := ["  >>", "  \\layout\x7b\x7d", "\x7d"]

/-- The whole document. -/
def document (options : Options) (piece : Piece) : Except Fault String := do
  let staves ← piece.parts.mapM (staff options 2)
  return "\n".intercalate (opening ++ staves ++ closing)

end JustIntonation.Score
