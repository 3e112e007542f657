/-
JustIntonation/Midi/File.lean

Pieces as Standard MIDI Files: a tempo track and one track per part.

Under pitch bend every note that sounds at the same time has a channel of its
own, so a part takes as many channels as it is high, from those that are
neither the master channel nor percussion.  Under a retuned keyboard each
part has one channel and the whole piece one tuning.

A chord is written as its bends, its note-ons, a wait of its length, and its
note-offs.
-/
import JustIntonation.Midi.Stroke
import JustIntonation.Midi.Track
import JustIntonation.Music.Measure

namespace JustIntonation.Midi

/-- How exact frequencies are reached. -/
inductive TuningMethod where
  | pitchBend
  | scala
deriving DecidableEq

namespace TuningMethod

def text : TuningMethod → String
  | .pitchBend => "pitch_bend"
  | .scala => "scala"

/-- The method of a name in ASCII letters of either case. -/
def ofText? (s : String) : Option TuningMethod :=
  match String.ofList (s.toList.map Char.toLower) with
  | "pitch_bend" => some .pitchBend
  | "scala" => some .scala
  | _ => none

/-- What is said of a name that is no method's. -/
def unknownText (s : String) : String :=
  s!"unknown tuning method '{s}' (expected pitch_bend or scala)"

end TuningMethod

/-- What a file is made with. -/
structure Options where
  /-- Frequency in hertz of the ratio one. -/
  f0 : Binary64 := 440
  /-- Seconds per beat. -/
  t0 : Binary64 := .rounded false (1 / 2)
  ticksPerBeat : Nat := 6720
  /-- Semitones of a full bend. -/
  bendRange : Nat := 2
  tuning : TuningMethod := .scala
  /-- The program of each part, counted from one; parts beyond the list have its last. -/
  programs : List (Option Nat) := []

/-- A file before it is encoded. -/
structure File where
  ticksPerBeat : Nat
  tempo : Track
  parts : List (List Channel × Track)
  /-- Present where the keyboard is retuned. -/
  keyboard : Option Tuning.Keyboard

/-! ### Parts -/

/-- The ticks that the notes of a chord share. -/
def sharedTicks (strokes : List Stroke) : Except Fault Nat :=
  match strokes with
  | [] => .ok 0
  | s :: rest =>
    if rest.all (·.ticks = s.ticks) then .ok s.ticks else .error (.breach .unequalDurations)

/-- The bends, the note-ons, and after a wait the note-offs of notes on their channels. -/
def chordSteps (ticks : Nat) (strokes : List (Stroke × Channel)) : Track :=
  let bends := strokes.filterMap fun (s, channel) =>
    s.bend.map fun amount => Step.send (.bend channel amount)
  let ons := strokes.map fun (s, channel) => Step.send (.noteOn channel s.key s.velocity)
  let offs := strokes.map fun (s, channel) => Step.send (.noteOff channel s.key)
  bends ++ ons ++ Step.wait ticks :: offs

/-- The steps of an event whose notes are struck by `strike` on the given channels. -/
def eventSteps (strike : Note → Except Fault Stroke) (channels : List Channel) (e : Event) :
    Except Fault Track := do
  if e.notes.isEmpty then return []
  if channels.length < e.notes.length then
    throw (.breach (.tooFewChannels e.notes.length channels.length))
  let strokes ← e.notes.mapM strike
  let ticks ← sharedTicks strokes
  return chordSteps ticks (strokes.zip channels)

/-- The program of a part as a data byte. -/
def programOf (programs : List (Option Nat)) (index : Nat) : Except Fault (Option Nat) :=
  match (programs[index]?).or programs.getLast? with
  | some (some p) =>
    if 1 ≤ p ∧ p ≤ 128 then .ok (some (p - 1)) else .error (.violation (.invalidProgram p))
  | _ => .ok none

/-- A part's track: its program on every channel it uses, then its events.  `spread` gives the
channels on which the notes of an event are struck. -/
def partTrack (strike : Note → Except Fault Stroke) (spread : Event → List Channel)
    (channels : List Channel) (program : Option Nat) (p : Part) : Except Fault Track := do
  let programs := match program with
    | some number => channels.map fun channel => Step.send (.program channel number)
    | none => []
  let events ← p.events.mapM fun e => eventSteps strike (spread e) e
  return programs ++ events.flatten

/-! ### Tuning methods -/

/-- The channels for bent notes: without 0, which may be a master channel, and 9, which is
percussion. -/
def bendChannels : List Channel :=
  [1, 2, 3, 4, 5, 6, 7, 8, 10, 11, 12, 13, 14, 15].map Channel.ofNat

/-- The tracks of the parts from `index` on, each taking its channels from the free ones. -/
def bentParts (options : Options) : Nat → List Channel → List Part →
    Except Fault (List (List Channel × Track))
  | _, _, [] => .ok []
  | index, free, p :: ps => do
    if free.length < p.height then
      throw (.violation (.channelsExhausted index p.height free.length))
    let channels := free.take p.height
    let program ← programOf options.programs index
    let strike := Stroke.bent options.f0 options.bendRange options.ticksPerBeat
    let track ← partTrack strike (fun _ => channels) channels program p
    let rest ← bentParts options (index + 1) (free.drop p.height) ps
    return (channels, track) :: rest

/-- The tracks of the parts from `index` on, each on the channel of its number. -/
def mappedParts (options : Options) (keys : Tuning.KeyMap) : Nat → List Part →
    Except Fault (List (List Channel × Track))
  | _, [] => .ok []
  | index, p :: ps => do
    let channel := Channel.ofNat index
    let program ← programOf options.programs index
    let strike := Stroke.mapped keys options.ticksPerBeat
    let track ← partTrack strike (fun e => e.notes.map fun _ => channel) [channel] program p
    let rest ← mappedParts options keys (index + 1) ps
    return ([channel], track) :: rest

/-! ### Files -/

/-- The microseconds of a beat, which must fit into three bytes. -/
def tempoTrack (t0 : Binary64) : Except Fault Track :=
  let microseconds := (t0 / .ofDecimal false 1 (-6)).roundEven.toInt64
  if 0 ≤ microseconds ∧ microseconds ≤ 0xFFFFFF then .ok [.send (.tempo microseconds.toNat)]
  else .error (.violation (.tempoOutOfRange microseconds))

/-- The most tracks that a file can count. -/
def maxTracks : Nat := 0xFFFF

/-- The channels and tracks of all parts, with the tuning of the keyboard if it is retuned. -/
def allParts (options : Options) (parts : List Part) :
    Except Fault (List (List Channel × Track) × Option Tuning.Keyboard) :=
  match options.tuning with
  | .pitchBend => do
    let tracks ← bentParts options 0 bendChannels parts
    return (tracks, none)
  | .scala => do
    if 16 < parts.length then throw (.violation (.tooManyParts parts.length 16))
    let keyboard ← Music.keyboard options.f0 (.piece ⟨parts⟩)
    let tracks ← mappedParts options keyboard.keys 0 parts
    return (tracks, some keyboard)

/-- The file of a piece. -/
def File.ofPiece (options : Options) (piece : Piece) : Except Fault File := do
  let tempo ← tempoTrack options.t0
  let (parts, keyboard) ← allParts options piece.parts
  if maxTracks < piece.parts.length + 1 then
    throw (.violation (.tooManyParts piece.parts.length (maxTracks - 1)))
  return ⟨options.ticksPerBeat, tempo, parts, keyboard⟩

namespace File

/-- The channels of each part. -/
def channels (f : File) : List (List Channel) := f.parts.map Prod.fst

/-- All tracks in the order of the file. -/
def tracks (f : File) : List Track := f.tempo :: f.parts.map Prod.snd

/-- The header chunk: format 1, the number of tracks, the ticks of a beat. -/
def header (f : File) : List UInt8 :=
  chunk "MThd" (bigEndian 2 1 ++ bigEndian 2 f.tracks.length ++ bigEndian 2 f.ticksPerBeat)

/-- The file's bytes. -/
def bytes (f : File) : List UInt8 := f.header ++ f.tracks.flatMap Track.bytes

end File

end JustIntonation.Midi
