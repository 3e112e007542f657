/-
JustIntonation/Proofs/Midi/Reader.lean

A reader of Standard MIDI Files.

The reader follows the file format and knows nothing of how files are made
here: it takes all messages of the format, running status and system
exclusive data included, and a header chunk of any length from six on.  What
the format forbids it refuses: a variable-length quantity of more than four
bytes, a data byte with its top bit set, a track without an end or with
anything behind its end, a chunk shorter than it says, and bytes behind the
last chunk.
-/
import JustIntonation.Midi.Track

namespace JustIntonation.Midi

/-- What can stand behind a delta time in a track. -/
inductive TrackEvent where
  | noteOff (channel : Channel) (key velocity : Nat)
  | noteOn (channel : Channel) (key velocity : Nat)
  | keyPressure (channel : Channel) (key pressure : Nat)
  | controlChange (channel : Channel) (controller value : Nat)
  | programChange (channel : Channel) (number : Nat)
  | channelPressure (channel : Channel) (pressure : Nat)
  | pitchBend (channel : Channel) (amount : Nat)
  | systemExclusive (data : List UInt8)
  /-- Microseconds per beat. -/
  | tempo (microseconds : Nat)
  | endOfTrack
  | otherMeta (kind : Nat) (data : List UInt8)
deriving DecidableEq

/-- A reader takes what it reads from the front of the bytes. -/
abbrev Reader (α : Type) : Type := StateT (List UInt8) Option α

namespace Reader

/-! ### Numbers -/

def byte : Reader Nat
  | [] => none
  | b :: rest => some (b.toNat, rest)

/-- A byte with its top bit clear. -/
def dataByte : Reader Nat := do
  let b ← byte
  if b < 128 then return b else failure

/-- As many bytes as are asked for. -/
def take (count : Nat) : Reader (List UInt8) := fun bytes =>
  if count ≤ bytes.length then some (bytes.take count, bytes.drop count) else none

/-- The number of some bytes, most significant first. -/
def numberOf (bytes : List UInt8) : Nat := bytes.foldl (fun n b => 256 * n + b.toNat) 0

def number (count : Nat) : Reader Nat := numberOf <$> take count

/-- The rest of a variable-length quantity that has begun with `n`, in at most `limit` bytes. -/
def quantityFrom (n : Nat) : Nat → Reader Nat
  | 0 => failure
  | limit + 1 => do
    let b ← byte
    if b < 128 then return 128 * n + b
    else quantityFrom (128 * n + (b - 128)) limit

/-- A variable-length quantity. -/
def quantity : Reader Nat := quantityFrom 0 4

/-! ### Events -/

/-- A channel message of a kind, behind its status byte. -/
def channelEvent (kind : Nat) (channel : Channel) : Reader TrackEvent := do
  match kind with
  | 0x8 => return .noteOff channel (← dataByte) (← dataByte)
  | 0x9 => return .noteOn channel (← dataByte) (← dataByte)
  | 0xA => return .keyPressure channel (← dataByte) (← dataByte)
  | 0xB => return .controlChange channel (← dataByte) (← dataByte)
  | 0xC => return .programChange channel (← dataByte)
  | 0xD => return .channelPressure channel (← dataByte)
  | 0xE => return .pitchBend channel ((← dataByte) + 128 * (← dataByte))
  | _ => failure

/-- A meta event behind its first byte. -/
def metaEvent : Reader TrackEvent := do
  let kind ← dataByte
  let data ← take (← quantity)
  match kind, data with
  | 0x2F, [] => return .endOfTrack
  | 0x51, [a, b, c] => return .tempo (numberOf [a, b, c])
  | _, _ => return .otherMeta kind data

/-- The data of a channel message: of what kind and on which channel its status byte says. -/
def channelEventOf (status : Nat) : Reader TrackEvent :=
  channelEvent (status / 16) (.ofNat status)

/-- An event and the status that runs on behind it.  A data byte in place of a status stands
for the one that is running. -/
def event (running : Option Nat) : Reader (TrackEvent × Option Nat) := do
  let bytes ← get
  let first ← byte
  if first < 0x80 then
    match running with
    | some status =>
      set bytes
      return (← channelEventOf status, running)
    | none => failure
  else if first < 0xF0 then return (← channelEventOf first, some first)
  else if first = 0xFF then return (← metaEvent, none)
  else if first = 0xF0 ∨ first = 0xF7 then
    return (.systemExclusive (← take (← quantity)), none)
  else failure

/-- An event behind its delta time. -/
def timedEvent (running : Option Nat) : Reader (Nat × TrackEvent × Option Nat) := do
  let delta ← quantity
  let (event, running) ← event running
  return (delta, event, running)

/-! ### Tracks and files -/

/-- The events of a track with their delta times.  The last is the end of the track, which
stands nowhere else, and the bytes end with it. -/
def trackEvents (running : Option Nat) (bytes : List UInt8) : Option (List (Nat × TrackEvent)) :=
  match (timedEvent running).run bytes with
  | none => none
  | some ((delta, event, running), rest) =>
    if event = .endOfTrack then if rest = [] then some [(delta, event)] else none
    else if rest.length < bytes.length then
      (trackEvents running rest).map ((delta, event) :: ·)
    else none
termination_by bytes.length

/-- The body of a chunk with the given name, of the length that the chunk says. -/
def chunkBody (name : String) : Reader (List UInt8) := do
  let found ← take 4
  if found = name.toUTF8.toList then take (← number 4) else failure

def track : Reader (List (Nat × TrackEvent)) := do
  match trackEvents none (← chunkBody "MTrk") with
  | some events => return events
  | none => failure

def tracks : Nat → Reader (List (List (Nat × TrackEvent)))
  | 0 => return []
  | count + 1 => do
    let first ← track
    let rest ← tracks count
    return first :: rest

end Reader

/-- What a file says: the length of its header, what the header holds, and the events of its
tracks with their delta times. -/
structure Contents where
  headerLength : Nat
  format : Nat
  trackCount : Nat
  division : Nat
  tracks : List (List (Nat × TrackEvent))

namespace Contents

open Reader

/-- The three numbers of a header. -/
def headerNumbers : Reader (Nat × Nat × Nat) := do
  let format ← number 2
  let count ← number 2
  let division ← number 2
  return (format, count, division)

def reader : Reader Contents := do
  let header ← chunkBody "MThd"
  match headerNumbers.run header with
  | some ((format, count, division), _) =>
    return ⟨header.length, format, count, division, ← Reader.tracks count⟩
  | none => failure

/-- Read a whole file; nothing may be left of it. -/
def read (bytes : List UInt8) : Option Contents :=
  match reader.run bytes with
  | some (contents, []) => some contents
  | _ => none

end Contents

/-- Events at absolute ticks from their delta times, the first one counted from `now`. -/
def absolute (now : Nat) : List (Nat × TrackEvent) → List (Nat × TrackEvent)
  | [] => []
  | (delta, event) :: rest => (now + delta, event) :: absolute (now + delta) rest

end JustIntonation.Midi
