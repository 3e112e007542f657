/-
JustIntonation/Fault.lean

Why a text or a piece is refused.

A `Fault` is a malformed text, a value that an output format cannot hold, or
a breach of what correctly built music promises.  Each carries its cause; the
wording is in `text` alone.
-/
import JustIntonation.Notation.SyntaxError
import JustIntonation.Quantity

namespace JustIntonation

/-- A value outside what an output format can represent. -/
inductive Violation where
  | pitchOutOfRange (pitch : Int)
  | bendOutOfRange (bend : Int)
  | velocityOutOfRange (velocity : Int)
  | fractionalTicks (duration : Quantity) (ticksPerBeat : Nat)
  | ticksOutOfRange (duration : Quantity)
  | channelsExhausted (part needed available : Nat)
  | tooManyParts (parts available : Nat)
  | unmappedFrequency (frequency : Number)
  | tooManyFrequencies (count : Nat)
  | tempoOutOfRange (microseconds : Int)
  | invalidProgram (program : Nat)
  | zeroDivisions
  | zeroBendRange
  | unwritableDuration (duration : Quantity)
deriving DecidableEq

def Violation.text : Violation → String
  | .pitchOutOfRange pitch => s!"MIDI pitch {pitch} is outside 0..=127"
  | .bendOutOfRange bend =>
    s!"pitch bend {bend} is outside 0..=16383 (try a larger pitch bend range)"
  | .velocityOutOfRange velocity => s!"velocity {velocity} is outside 0..=127"
  | .fractionalTicks duration ticksPerBeat =>
    s!"duration {duration.text} gives a non-integral tick count at {ticksPerBeat} ticks per beat"
  | .ticksOutOfRange duration =>
    s!"duration {duration.text} gives a tick count that does not fit in a MIDI delta time"
  | .channelsExhausted part needed available =>
    s!"part {part} needs {needed} MIDI channels but only {available} remain"
  | .tooManyParts parts available =>
    s!"{parts} parts need more than the {available} available MIDI channels"
  | .unmappedFrequency frequency =>
    s!"frequency {frequency.text} has no MIDI note in the tuning map"
  | .tooManyFrequencies count => s!"{count} distinct frequencies do not fit in 128 MIDI notes"
  | .tempoOutOfRange microseconds =>
    s!"tempo of {microseconds} microseconds per beat does not fit in three bytes"
  | .invalidProgram program => s!"MIDI program {program} is outside 1..=128"
  | .zeroDivisions => "equal division of the octave must be positive"
  | .zeroBendRange => "pitch bend range must be a positive number of semitones"
  | .unwritableDuration duration =>
    s!"duration {duration.text} cannot be written with standard note values"

/-- What correctly built music never does. -/
inductive Breach where
  | scaledPower (power : Power) (factors : Product)
  | tooFewChannels (notes channels : Nat)
  | unequalDurations
deriving DecidableEq

def Breach.text : Breach → String
  | .scaledPower power factors =>
    s!"cannot multiply tempered power {power.text} by {factors.text}"
  | .tooFewChannels notes channels => s!"{notes} simultaneous notes but {channels} channels"
  | .unequalDurations => "chord notes have different durations"

inductive Fault where
  | malformed (error : Notation.SyntaxError)
  | violation (v : Violation)
  | breach (b : Breach)
deriving DecidableEq

def Fault.text : Fault → String
  | .malformed error => error.text
  | .violation v => v.text
  | .breach b => "internal contract violation: " ++ b.text

/-- Put factors in front of a quantity; a tempered power does not take any. -/
def Quantity.scaled (factors : Product) (q : Quantity) : Except Fault Quantity :=
  match q.prepend factors with
  | .ok q => .ok q
  | .error tempered => .error (.breach (.scaledPower tempered factors))

end JustIntonation
