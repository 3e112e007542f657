/-
JustIntonation/Proofs/Midi/Retuned.lean

Files for a retuned keyboard.

Whatever may be wrong with a piece, an unmapped frequency is not
(`ofPiece_ne_unmapped`): it is no reason to refuse one.  Together with what
the keyboard is known to reproduce this settles retuning for exact pieces
(`retuning_exact`).
-/
import JustIntonation.Proofs.Midi.Refusal
import JustIntonation.Proofs.Tuning.Retuning

namespace JustIntonation.Midi

open Tuning

/-- No file is refused because a frequency has no key. -/
theorem ofPiece_ne_unmapped {options : Options} {x : Number} (piece : Piece) :
    File.ofPiece options piece ≠ .error (.violation (.unmappedFrequency x)) := by
  intro h
  cases refusal_of_ofPiece h with
  | stroke _ fault => cases fault

/-! ### Exact pieces -/

/-- Retuning for a piece whose frequencies are exact and not negative: it fails with the number
of pitches if they are more than 128, and otherwise reproduces every frequency; and no file of
the piece is refused because a frequency has no key. -/
theorem retuning_exact {piece : Piece} (h : piece.Exact) (f0 : Binary64) :
    (128 < piece.pitches.card ↔ Music.keyboard f0 (.piece piece)
      = .error (.violation (.tooManyFrequencies piece.pitches.card))) ∧
    (piece.pitches.card ≤ 128 ↔ ∃ k key, Music.keyboard f0 (.piece piece) = .ok k ∧
      Reproduces f0 piece k key) ∧
    ∀ options : Options, options.tuning = .scala → ∀ x,
      File.ofPiece options piece ≠ .error (.violation (.unmappedFrequency x)) := by
  obtain ⟨hmany, hfew⟩ := h.keyboard_eq f0
  have hreproduces : piece.pitches.card ≤ 128 →
      ∃ k key, Music.keyboard f0 (.piece piece) = .ok k ∧ Reproduces f0 piece k key := by
    intro hcount
    obtain ⟨k, qs, hk, hmade⟩ := hfew hcount
    exact ⟨k, _, hk, hmade.reproduces h⟩
  refine ⟨⟨hmany, ?_⟩, ⟨hreproduces, ?_⟩, fun options _ x => ofPiece_ne_unmapped piece⟩
  · intro herror
    by_contra hcount
    obtain ⟨k, key, hk, -⟩ := hreproduces (Nat.le_of_not_lt hcount)
    rw [hk] at herror
    cases herror
  · rintro ⟨k, key, hk, -⟩
    by_contra hcount
    rw [hmany (Nat.lt_of_not_le hcount)] at hk
    cases hk

theorem retuning_exact_octave : octaveAndRest.Exact ∧ octaveAndRest.pitches.card = 3 ∧
    ∃ k key, Music.keyboard middleC (.piece octaveAndRest) = .ok k ∧
      Reproduces middleC octaveAndRest k key := by
  have hexact : octaveAndRest.Exact := by decide +kernel
  have hcard : octaveAndRest.pitches.card = 3 := by decide +kernel
  refine ⟨hexact, hcard, (retuning_exact hexact middleC).2.1.mp ?_⟩
  rw [hcard]
  omega

end JustIntonation.Midi
