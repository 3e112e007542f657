/-
JustIntonation/Midi/Stroke.lean

Single notes as MIDI values.

Under pitch bend a frequency is played by the nearest equal-tempered key, and
the rest of the distance is a bend; under a retuned keyboard it has a key of
its own.  What does not fit exactly is refused: a duration must come out at a
whole number of ticks, and key, bend and velocity must lie in their ranges.
A rest holds key 0 silently.
-/
import JustIntonation.Binary64.Reading
import JustIntonation.Fault
import JustIntonation.Midi.Bytes
import JustIntonation.Music.Basic
import JustIntonation.Tuning.Keyboard

namespace JustIntonation.Midi

/-- A note as it is struck. -/
structure Stroke where
  key : Nat
  /-- Absent where the keyboard itself is retuned. -/
  bend : Option Nat
  ticks : Nat
  velocity : Nat
deriving DecidableEq

/-! ### Duration -/

/-- The ticks of a duration in beats. -/
def durationTicks (ticksPerBeat : Nat) (duration : Quantity) : Except Fault Nat :=
  let limited (ticks : Int) : Except Fault Nat :=
    if 0 ≤ ticks ∧ ticks ≤ maxVariableLength then .ok ticks.toNat
    else .error (.violation (.ticksOutOfRange duration))
  let fractional : Except Fault Nat := .error (.violation (.fractionalTicks duration ticksPerBeat))
  match duration.value with
  | .exact beats =>
    let ticks := beats * ticksPerBeat
    if ticks.den = 1 then limited ticks.num else fractional
  | .approximate beats =>
    let ticks := beats * Binary64.ofInt ticksPerBeat
    if ticks.isFinite && ticks.toRat.den = 1 then limited ticks.toRat.num else fractional

/-! ### Velocity -/

/-- Volume one is velocity 64, and what is louder than 127 is played at 127. -/
def velocityOf (volume : Quantity) : Except Fault Nat :=
  let velocity := (volume.value.toBinary64 * 64).roundEven
  if velocity.isNaN || velocity.lt 0 then .error (.violation (.velocityOutOfRange velocity.toInt64))
  else .ok (min velocity.toInt64 127).toNat

/-! ### Key and bend -/

/-- The frequency of key 60, nine semitones below 440 hertz. -/
def middleC : Binary64 := .ofDecimal false 2616255653005986 (-13)

/-- No bend. -/
def bendCenter : Nat := 0x2000

def maxBend : Nat := 0x3FFF

/-- Read an integer in 64-bit two's complement. -/
def word64 (n : Int) : Int := n.bmod 0x10000000000000000

def keyOf (pitch : Int) : Except Fault Nat :=
  if 0 ≤ pitch ∧ pitch ≤ 127 then .ok pitch.toNat else .error (.violation (.pitchOutOfRange pitch))

def bendOf (bend : Int) : Except Fault Nat :=
  if 0 ≤ bend ∧ bend ≤ maxBend then .ok bend.toNat else .error (.violation (.bendOutOfRange bend))

/-- The semitones from middle C up to a frequency in hertz. -/
def semitones (frequency : Binary64) : Binary64 := 12 * (frequency / middleC).log2

/-- A note under pitch bend, a full bend covering `bendRange` semitones. -/
def Stroke.bent (f0 : Binary64) (bendRange ticksPerBeat : Nat) (n : Note) :
    Except Fault Stroke := do
  if bendRange = 0 then throw (.violation .zeroBendRange)
  let ticks ← durationTicks ticksPerBeat n.duration
  let frequency := n.frequency.value.toBinary64 * f0
  if frequency.isZero then return ⟨0, some bendCenter, ticks, 0⟩
  let distance := semitones frequency
  let nearest := distance.roundEven
  let perSemitone := Binary64.ofInt (maxBend - bendCenter : Nat) / Binary64.ofInt bendRange
  let bend := (Binary64.ofInt bendCenter + (distance - nearest) * perSemitone).roundEven.toInt64
  let key ← keyOf (word64 (60 + nearest.toInt64))
  let bend ← bendOf bend
  let velocity ← velocityOf n.volume
  return ⟨key, some bend, ticks, velocity⟩

/-- A note on a retuned keyboard. -/
def Stroke.mapped (keys : Tuning.KeyMap) (ticksPerBeat : Nat) (n : Note) :
    Except Fault Stroke := do
  let ticks ← durationTicks ticksPerBeat n.duration
  if n.isRest then return ⟨0, none, ticks, 0⟩
  match keys.find? n.frequency.value with
  | none => throw (.violation (.unmappedFrequency n.frequency.value))
  | some key => return ⟨key, none, ticks, ← velocityOf n.volume⟩

end JustIntonation.Midi
