/-
JustIntonation/CommandLine/Run.lean

Carrying out a compilation.

The files are compiled one after the other, and the first failure ends the
run; what was written before it stays.  Commands that show something show it
when all files are done.  A file without any events is passed over.
-/
import JustIntonation.CommandLine.Arguments
import JustIntonation.CommandLine.Failure
import JustIntonation.Json.Music
import JustIntonation.Notation.Meaning
import JustIntonation.Report
import JustIntonation.Settings.Discovery
import JustIntonation.Temperament

namespace JustIntonation.CommandLine

variable {m : Type → Type} [Monad m]

/-! ### Settings -/

/-- The layer that the options set. -/
def Choices.layer (o : Choices) : Settings.Layer :=
  { t := o.t, f := o.f, tuningMethod := o.tuningMethod, bendRange := o.bendRange
    divisions := o.divisions, verbose := if o.verbose then some true else none }

/-- Put the options over the settings that were found. -/
def Choices.over (o : Choices) (s : Settings) : Except Settings.Error Settings := do
  let s := o.layer.over s
  let s ← match o.programs with
    | some text => s.withPrograms text
    | none => .ok s
  s.check
  return s

/-! ### Files -/

/-- The value of a result, or the failure that its error means. -/
def orFail (failure : ε → Failure) (r : Except ε α) : ExceptT Failure m α :=
  ExceptT.mk (pure (r.mapError failure))

/-- The piece of a file, tempered; none if it has no events. -/
def readPiece (a : Access m) (s : Settings) (path : String) : ExceptT Failure m (Option Piece) := do
  match ← a.read path with
  | .error fault => throw (.reading path fault)
  | .ok text =>
    let piece ← orFail (.parsing path) (Piece.parse text)
    let piece ← orFail .tempering (piece.temper (s.divisions.map UInt32.toNat))
    return if piece.isEmpty then none else some piece

def writeBytes (a : Access m) (path : String) (bytes : List UInt8) : ExceptT Failure m Unit := do
  match ← a.write path bytes with
  | .error fault => throw (.writing path fault)
  | .ok () => return ()

def writeText (a : Access m) (path text : String) : ExceptT Failure m Unit :=
  writeBytes a path text.toUTF8.toList

/-- Write the MIDI file of a piece, and the tables of its tuning if it has one. -/
def writeMidi (a : Access m) (s : Settings) (path : String) (piece : Piece) :
    ExceptT Failure m Unit := do
  let file ← orFail (.midi path) (Midi.File.ofPiece s.midi piece)
  writeBytes a (Path.withExtension path "midi") file.bytes
  match file.keyboard with
  | none => return ()
  | some keyboard =>
    writeText a (Path.withExtension path "scl") (keyboard.scaleText (Path.stem path))
    writeText a (Path.withExtension path "kbm") keyboard.mappingText

def writeScore (a : Access m) (s : Settings) (path : String) (piece : Piece) :
    ExceptT Failure m Unit := do
  let document ← orFail (.score path) (Score.document s.score piece)
  writeText a (Path.withExtension path "ly") document

def writeScale (a : Access m) (path : String) (piece : Piece) : ExceptT Failure m Unit :=
  writeText a (Path.withExtension path "scl") ((Music.piece piece).standaloneScale (Path.stem path))

/-- Compile one piece and give what is to be shown. -/
def compile (a : Access m) (s : Settings) (i : Invocation) (path : String) (piece : Piece) :
    ExceptT Failure m String := do
  match i.command with
  | .midi => writeMidi a s path piece; return ""
  | .lilypond => writeScore a s path piece; return ""
  | .scale => writeScale a path piece; return ""
  | .notes =>
    return if i.choices.json then piece.jsonText ++ "\n" else (Music.piece piece).listing
  | .table => return (Music.piece piece).intervalTable

/-- Compile all files and give what is to be shown. -/
def compileAll (a : Access m) (s : Settings) (i : Invocation) : ExceptT Failure m String := do
  let shown ← i.files.mapM fun path => do
    match ← readPiece a s path with
    | none => return ""
    | some piece => compile a s i path piece
  return String.join shown

/-! ### Runs -/

/-- Find the settings and compile. -/
def Invocation.run (a : Access m) (i : Invocation) : ExceptT Failure m String := do
  let (s, _) ← orFail .loading (← (Settings.find a i.choices.config : m _))
  let s ← orFail .settings (i.choices.over s)
  compileAll a s i

/-- How a run ends. -/
structure Outcome where
  exit : UInt8
  output : String := ""
  errors : String := ""

def versionText : String := "jird 0.1.0\n"

def usageText : String :=
  "Usage: jird [-c FILE] [-v] <midi|lilypond|scale|notes|table> [OPTIONS] <FILES>...\n"

def Stop.outcome : Stop → Outcome
  | .help => { exit := 0, output := usageText }
  | .version => { exit := 0, output := versionText }
  | .usage => { exit := 2, errors := usageText }

/-- Run with the given arguments. -/
def run (a : Access m) (arguments : List String) : m Outcome := do
  match Invocation.ofArguments arguments with
  | .error stop => return stop.outcome
  | .ok i =>
    match ← (i.run a).run with
    | .ok output => return { exit := 0, output }
    | .error failure => return { exit := 1, errors := failure.text }

end JustIntonation.CommandLine
