/-
JustIntonation/Midi/Track.lean

Tracks as sequences of messages and waits.

A track is written down in the order of playing: messages at the current
tick, and waits that move it on.  `timed` gives every message its absolute
tick; the encoding puts the messages in the order of their ticks and writes
before each the ticks since the one before, so that of notes released
together only the first carries the whole wait.
-/
import JustIntonation.Midi.Bytes

namespace JustIntonation.Midi

abbrev Channel := Fin 16

/-- The channel of a number, counted modulo 16. -/
def Channel.ofNat (n : Nat) : Channel := ⟨n % 16, Nat.mod_lt _ (by decide)⟩

/-- What a track can send. -/
inductive Message where
  /-- Microseconds per beat. -/
  | tempo (microseconds : Nat)
  | program (channel : Channel) (number : Nat)
  | bend (channel : Channel) (amount : Nat)
  | noteOn (channel : Channel) (key velocity : Nat)
  | noteOff (channel : Channel) (key : Nat)
deriving DecidableEq

/-- The first byte of a message on a channel. -/
def status (kind : Nat) (channel : Channel) : UInt8 := UInt8.ofNat (16 * kind + channel.val)

def Message.bytes : Message → List UInt8
  | .tempo microseconds => [0xFF, 0x51] ++ variableLength 3 ++ bigEndian 3 microseconds
  | .program channel number => [status 0xC channel, UInt8.ofNat (number % 128)]
  | .bend channel amount => status 0xE channel :: fourteenBits amount
  | .noteOn channel key velocity => [status 0x9 channel, UInt8.ofNat key, UInt8.ofNat velocity]
  | .noteOff channel key => [status 0x8 channel, UInt8.ofNat key, 0]

/-- One step of a track. -/
inductive Step where
  | wait (ticks : Nat)
  | send (message : Message)
deriving DecidableEq

abbrev Track := List Step

namespace Track

/-- The messages with their absolute ticks, starting from tick `now`. -/
def timedFrom (now : Nat) : Track → List (Nat × Message)
  | [] => []
  | .wait ticks :: rest => timedFrom (now + ticks) rest
  | .send message :: rest => (now, message) :: timedFrom now rest

def timed (t : Track) : List (Nat × Message) := timedFrom 0 t

/-- Messages by their ticks; those at one tick stay in the order of writing. -/
def byTick (messages : List (Nat × Message)) : List (Nat × Message) :=
  messages.mergeSort fun a b => a.1 ≤ b.1

/-- Messages with the ticks since the message before each, a number of 32 bits, `last` being
the tick of that before the first. -/
def encodeFrom (last : Nat) : List (Nat × Message) → List UInt8
  | [] => []
  | (tick, message) :: rest =>
    variableLength ((tick - last) % 0x100000000) ++ message.bytes ++ encodeFrom tick rest

/-- The end of a track, without a wait before it. -/
def endOfTrack : List UInt8 := [0x00, 0xFF, 0x2F, 0x00]

/-- The body of a track chunk. -/
def body (t : Track) : List UInt8 := encodeFrom 0 (byTick t.timed) ++ endOfTrack

/-- The whole track chunk. -/
def bytes (t : Track) : List UInt8 := chunk "MTrk" t.body

end Track

end JustIntonation.Midi
