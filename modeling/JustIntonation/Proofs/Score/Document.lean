/-
JustIntonation/Proofs/Score/Document.lean

Why a piece is refused as a score.

Pitches and deviations can always be written, so there is one reason only: a
note whose duration cannot be written (`document_eq_error`).
-/
import JustIntonation.Score.Document
import JustIntonation.Proofs.Score.Duration
import JustIntonation.Proofs.Temperament

namespace JustIntonation.Score

variable {options : Options} {f : Fault}

theorem exists_centDeviation {divisions : Nat} (h : divisions ≠ 0) (n : Note) :
    ∃ s, centDeviation divisions n = .ok s := by
  rw [centDeviation]
  cases n.cents with
  | none => exact ⟨_, rfl⟩
  | some cents =>
    obtain ⟨tempered, htempered⟩ := n.exists_temper h
    exact ⟨_, bind_eq_ok.mpr ⟨tempered, htempered, rfl⟩⟩

/-- A note of a duration that can be written can be written. -/
theorem exists_note (hdivisions : options.referenceDivisions ≠ 0) {n : Note} {t : Template}
    (h : Template.ofDuration n.duration = .ok t) : ∃ text, note options n = .ok text := by
  obtain ⟨deviation, hdeviation⟩ := exists_centDeviation hdivisions n
  rw [note, h]
  cases n.isRest with
  | true => exact ⟨_, rfl⟩
  | false =>
    rw [hdeviation]
    exact ⟨_, rfl⟩

/-- A chord is as long as its first note. -/
theorem exists_chord (hdivisions : options.referenceDivisions ≠ 0) {first : Note}
    (rest : List Note) {t : Template} (h : Template.ofDuration first.duration = .ok t) :
    ∃ text, chord options (first :: rest) = .ok text := by
  have hdeviation : ∀ n ∈ ascending (first :: rest),
      ∃ s, centDeviation options.referenceDivisions n = .ok s :=
    fun n _ => exists_centDeviation hdivisions n
  obtain ⟨deviations, hdeviations⟩ := exists_mapM_eq_ok hdeviation
  exact ⟨_, bind_eq_ok.mpr ⟨t, h, bind_eq_ok.mpr ⟨deviations, hdeviations, rfl⟩⟩⟩

theorem note_eq_error (hdivisions : options.referenceDivisions ≠ 0) {n : Note}
    (h : note options n = .error f) : f = .violation (.unwritableDuration n.duration) := by
  obtain ⟨deviation, hdeviation⟩ := exists_centDeviation hdivisions n
  simp only [note, bind_eq_error] at h
  obtain hduration | ⟨template, -, h⟩ := h
  · exact eq_unwritable_of_ofDuration hduration
  · split_ifs at h
    · cases h
    · rw [hdeviation] at h
      cases h

theorem chord_eq_error (hdivisions : options.referenceDivisions ≠ 0) {notes : List Note}
    (h : chord options notes = .error f) :
    ∃ n ∈ notes, f = .violation (.unwritableDuration n.duration) := by
  cases notes with
  | nil => cases h
  | cons first rest =>
    have hdeviation : ∀ n ∈ ascending (first :: rest),
        ∃ s, centDeviation options.referenceDivisions n = .ok s :=
      fun n _ => exists_centDeviation hdivisions n
    obtain ⟨deviations, hdeviations⟩ := exists_mapM_eq_ok hdeviation
    simp only [chord, bind_eq_error, hdeviations, pure_ne_error, and_false, exists_false,
      or_false, reduceCtorEq] at h
    exact ⟨first, List.mem_cons_self, eq_unwritable_of_ofDuration h⟩

theorem event_eq_error (hdivisions : options.referenceDivisions ≠ 0) {e : Event}
    (h : event options e = .error f) :
    ∃ n ∈ e.notes, f = .violation (.unwritableDuration n.duration) := by
  cases e with
  | note n => exact ⟨n, List.mem_cons_self, note_eq_error hdivisions h⟩
  | chord notes => exact chord_eq_error hdivisions h

/-- A score fails only with a duration that cannot be written. -/
theorem document_eq_error (hdivisions : options.referenceDivisions ≠ 0) {piece : Piece}
    (h : document options piece = .error f) :
    ∃ n ∈ (Music.piece piece).notes, f = .violation (.unwritableDuration n.duration) := by
  simp only [document, bind_eq_error, pure_ne_error, and_false, exists_false, or_false] at h
  obtain ⟨p, hp, hstaff⟩ := exists_of_mapM_eq_error h
  simp only [staff, staffLines, bind_eq_error, pure_ne_error, and_false, exists_false,
    or_false] at hstaff
  obtain ⟨e, he, hevent⟩ := exists_of_mapM_eq_error hstaff
  obtain ⟨n, hn, rfl⟩ := event_eq_error hdivisions hevent
  exact ⟨n, Piece.mem_notes hp he hn, rfl⟩

end JustIntonation.Score
