/-
JustIntonation/Proofs/Compilation.lean

Which faults a compilation cannot end with.

Some faults are provided for that no text brings about under settings that
pass their check: breaches of what correctly built music promises, and values
that were checked before or are never made.  Each is ruled out elsewhere: a
text gives music whose notes are not tempered and last equally long where they
sound together (`yields_parse`), tempering keeps that (`Piece.exists_temper`),
checked settings list programs that exist and bend by some range
(`Settings.check_eq_ok`), and then no reason is left to refuse a piece as a
file but those that are no internal faults (`Midi.refusal_of_ofPiece`).

Main result: `compilation_not_internal`.
-/
import JustIntonation.Proofs.Midi.Refusal
import JustIntonation.Proofs.Notation.Meaning
import JustIntonation.Proofs.Score.Document
import JustIntonation.Proofs.Settings.Check

namespace JustIntonation

/-- A fault that blames no text and no piece: a breach, or a value that is checked or made
elsewhere. -/
def Fault.IsInternal : Fault → Prop
  | .breach _ => True
  | .violation (.unmappedFrequency _) => True
  | .violation .zeroDivisions => True
  | .violation (.invalidProgram _) => True
  | .violation .zeroBendRange => True
  | _ => False

/-! ### Files -/

theorem Midi.StrokeFault.not_isInternal {n : Note} {f : Fault} (h : Midi.StrokeFault n f) :
    ¬f.IsInternal := by
  cases h <;> exact id

/-- A piece whose notes last equally long in each event is refused for no internal fault, if the
options are in range. -/
theorem Midi.Refusal.not_isInternal {options : Midi.Options} {piece : Piece} {f : Fault}
    (h : Midi.Refusal options piece f)
    (hprograms : ∀ p, some p ∈ options.programs → 1 ≤ p ∧ p ≤ 128)
    (hbendRange : options.bendRange ≠ 0) (hshared : piece.SharesDurations) : ¬f.IsInternal := by
  cases h with
  | tempoOutOfRange => exact id
  | tooManyParts => exact id
  | channelsExhausted => exact id
  | tooManyFrequencies => exact id
  | invalidProgram listed range => exact absurd (hprograms _ listed) range
  | zeroBendRange zero => exact absurd zero hbendRange
  | stroke _ fault => exact fault.not_isInternal
  | unequalDurations part event first second unequal =>
    exact absurd (hshared _ part _ event _ first _ second) unequal

namespace Settings

theorem midi_programs_of_check {s : Settings} (h : s.check = .ok ()) :
    ∀ p, some p ∈ s.midi.programs → 1 ≤ p ∧ p ≤ 128 := by
  intro p hp
  obtain ⟨program, hprogram, hmap⟩ := List.mem_map.mp hp
  obtain ⟨q, rfl, rfl⟩ := Option.map_eq_some_iff.mp hmap
  obtain ⟨-, -, -, -, hprograms⟩ := check_eq_ok.mp h
  obtain ⟨hlow, hhigh⟩ := hprograms (some q) hprogram q rfl
  exact ⟨UInt8.le_iff_toNat_le.mp hlow, UInt8.le_iff_toNat_le.mp hhigh⟩

theorem midi_bendRange_of_check {s : Settings} (h : s.check = .ok ()) : s.midi.bendRange ≠ 0 := by
  obtain ⟨-, -, hbendRange, -⟩ := check_eq_ok.mp h
  exact fun hzero => hbendRange (UInt32.toNat_inj.mp hzero)

theorem divisions_of_check {s : Settings} (h : s.check = .ok ()) :
    s.divisions.map UInt32.toNat ≠ some 0 := by
  obtain ⟨-, -, -, hdivisions, -⟩ := check_eq_ok.mp h
  intro hzero
  obtain ⟨d, hd, hd0⟩ := Option.map_eq_some_iff.mp hzero
  obtain rfl : d = 0 := UInt32.toNat_inj.mp hd0
  exact hdivisions hd

/-- Deviations in a score are always measured against some division. -/
theorem score_divisions_ne_zero (s : Settings) : s.score.referenceDivisions ≠ 0 := by
  show 12 ≠ 0
  decide

end Settings

/-! ### Compilations -/

/-- A text can only be malformed.  The piece of a text can be tempered under settings that pass
their check, and what it then fails with as a file, by either method of tuning, is no internal
fault; as a score it fails only with a duration that cannot be written. -/
theorem compilation_not_internal (source : String) :
    (∀ f, Piece.parse source = .error f → ∃ e, f = .malformed e) ∧
    ∀ (piece : Piece) (s : Settings), Piece.parse source = .ok piece → s.check = .ok () →
      ∃ tempered, piece.temper (s.divisions.map UInt32.toNat) = .ok tempered ∧
        (∀ method f, Midi.File.ofPiece { s.midi with tuning := method } tempered = .error f →
          ¬f.IsInternal) ∧
        ∀ f, Score.document s.score tempered = .error f →
          ∃ duration, f = .violation (.unwritableDuration duration) := by
  have hparse := yields_parse source
  constructor
  · intro f hf
    rw [hf] at hparse
    cases hparse with
    | malformed e => exact ⟨e, rfl⟩
  · intro piece s hpiece hcheck
    rw [hpiece] at hparse
    have hshared : piece.SharesDurations := by
      cases hparse with
      | value holds => exact fun part hpart e he => (holds part hpart e he).shared
    obtain ⟨tempered, htempered, hshared'⟩ :=
      Piece.exists_temper (Settings.divisions_of_check hcheck) hshared
    refine ⟨tempered, htempered, fun method f hf => ?_, fun f hf => ?_⟩
    · exact (Midi.refusal_of_ofPiece hf).not_isInternal (Settings.midi_programs_of_check hcheck)
        (Settings.midi_bendRange_of_check hcheck) hshared'
    · obtain ⟨n, -, rfl⟩ := Score.document_eq_error s.score_divisions_ne_zero hf
      exact ⟨n.duration, rfl⟩

/-- Twelve divisions, and a program for the first part and those after it. -/
def twelveTone : Settings where
  divisions := some 12
  programs := [some 5]

theorem compilation_not_internal_twelveTone :
    ∃ piece tempered, Piece.parse "2*<1 5/4>:1/2**3 0:1; 3/2:1" = .ok piece ∧
      twelveTone.check = .ok () ∧ piece.temper (some 12) = .ok tempered ∧
      (∀ method f, Midi.File.ofPiece { twelveTone.midi with tuning := method } tempered = .error f →
        ¬f.IsInternal) ∧
      ∀ f, Score.document twelveTone.score tempered = .error f →
        ∃ duration, f = .violation (.unwritableDuration duration) := by
  have hok : (Piece.parse "2*<1 5/4>:1/2**3 0:1; 3/2:1").isOk = true := by decide +kernel
  obtain ⟨piece, hpiece⟩ := exists_eq_ok hok
  have hcheck : twelveTone.check = .ok () := by decide +kernel
  obtain ⟨tempered, htempered, hfile, hscore⟩ :=
    (compilation_not_internal _).2 piece twelveTone hpiece hcheck
  exact ⟨piece, tempered, hpiece, hcheck, htempered, hfile, hscore⟩

end JustIntonation
