/-
JustIntonation/Settings/Basic.lean

The settings of a compilation, and layers of them.

A layer sets some of the settings and leaves the others alone.  Layers are
put over the defaults one after the other, so that for each setting the last
layer that sets it decides.
-/
import JustIntonation.Midi.File
import JustIntonation.Score.Document

namespace JustIntonation

structure Settings where
  /-- Seconds per beat. -/
  t : Binary64 := .rounded false (1 / 2)
  /-- Frequency in hertz of the ratio one. -/
  f : Binary64 := 440
  tuningMethod : Midi.TuningMethod := .scala
  /-- Semitones of a full pitch bend. -/
  bendRange : UInt32 := 2
  /-- Equal divisions of the octave to which the music is tempered. -/
  divisions : Option UInt32 := none
  verbose : Bool := false
  /-- The MIDI program of each part, counted from one. -/
  programs : List (Option UInt8) := []
deriving DecidableEq

namespace Settings

/-- What a MIDI file is made with under these settings. -/
def midi (s : Settings) : Midi.Options :=
  { f0 := s.f, t0 := s.t, bendRange := s.bendRange.toNat, tuning := s.tuningMethod
    programs := s.programs.map (·.map UInt8.toNat) }

/-- What a score is made with under these settings. -/
def score (s : Settings) : Score.Options := { f0 := s.f }

/-! ### Layers -/

structure Layer where
  t : Option Binary64 := none
  f : Option Binary64 := none
  tuningMethod : Option Midi.TuningMethod := none
  bendRange : Option UInt32 := none
  divisions : Option UInt32 := none
  verbose : Option Bool := none
  programs : Option (List (Option UInt8)) := none
deriving DecidableEq

/-- Put a layer over settings. -/
def Layer.over (l : Layer) (s : Settings) : Settings where
  t := l.t.getD s.t
  f := l.f.getD s.f
  tuningMethod := l.tuningMethod.getD s.tuningMethod
  bendRange := l.bendRange.getD s.bendRange
  divisions := l.divisions.or s.divisions
  verbose := l.verbose.getD s.verbose
  programs := l.programs.getD s.programs

end Settings

end JustIntonation
