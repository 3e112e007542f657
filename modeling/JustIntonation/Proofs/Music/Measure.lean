/-
JustIntonation/Proofs/Music/Measure.lean

What is measured of music depends on values only.

A quantity is written as a ratio, as a product of ratios or as a power, and
all that is measured of it is its value.  So pieces of one shape whose notes
are equal in value, one by one, have the same frequencies, and with them the
same scale and intervals, and last equally long (`Piece.Alike.measures_eq`).
-/
import JustIntonation.Proofs.Music.Traversal
import JustIntonation.Report
import JustIntonation.Tuning.Keyboard

namespace JustIntonation

/-- Notes whose frequencies, durations and volumes are equal in value, however they are
written. -/
structure Note.SameValues (n n' : Note) : Prop where
  frequency : n.frequency.value = n'.frequency.value
  duration : n.duration.value = n'.duration.value
  volume : n.volume.value = n'.volume.value

theorem Note.SameValues.isRest_eq {n n' : Note} (h : n.SameValues n') :
    n.isRest = n'.isRest := by
  rw [Note.isRest, Note.isRest, h.frequency]

/-- Notes that last equally long. -/
def Note.SameDuration (n n' : Note) : Prop := n.duration.value = n'.duration.value

/-! ### Height -/

/-- None of some numbers is above their maximum. -/
theorem le_foldl_max {ns : List ℕ} : ∀ {b n : ℕ}, n ≤ b ∨ n ∈ ns → n ≤ ns.foldl max b := by
  induction ns with
  | nil => exact fun h => h.resolve_right (List.not_mem_nil)
  | cons m ns ih =>
    rintro b n (h | h)
    · exact ih (.inl (Nat.le_trans h (Nat.le_max_left b m)))
    · obtain rfl | h := List.mem_cons.mp h
      · exact ih (.inl (Nat.le_max_right b n))
      · exact ih (.inr h)

section Height

variable {r : Note → Note → Prop}

/-- An event is as high as it has notes. -/
theorem Event.height_eq_length (e : Event) : e.height = e.notes.length := by
  cases e <;> rfl

theorem Event.Alike.length_eq {e e' : Event} (h : e.Alike r e') :
    e.notes.length = e'.notes.length := List.Forall₂.length_eq h

theorem Event.Alike.height_eq {e e' : Event} (h : e.Alike r e') : e.height = e'.height := by
  rw [e.height_eq_length, e'.height_eq_length, h.length_eq]

/-- Parts of one shape are as high. -/
theorem Part.height_eq_of_alike {p p' : Part}
    (h : List.Forall₂ (Event.Alike r) p.events p'.events) : p.height = p'.height := by
  rw [Part.height, Part.height,
    map_eq_map_of_forall₂ (h.imp fun _ _ halike => halike.height_eq)]

theorem Piece.Alike.height_eq {p p' : Piece} (h : p.Alike r p') :
    (Music.piece p).height = (Music.piece p').height := by
  have hparts : p.parts.map Part.height = p'.parts.map Part.height :=
    map_eq_map_of_forall₂ (List.Forall₂.imp (fun _ _ => Part.height_eq_of_alike) h)
  show p.height = p'.height
  rw [Piece.height, Piece.height, hparts]

end Height

/-! ### Values -/

section Values

variable {p p' : Piece}

/-- An event lasts as long as the last of its longest notes, also if it is a single one. -/
theorem Event.totalDuration_eq (e : Event) :
    e.totalDuration = Number.largest (e.notes.map fun n => n.duration.value) := by
  cases e <;> rfl

theorem Event.Alike.totalDuration_eq {e e' : Event} (h : e.Alike Note.SameDuration e') :
    e.totalDuration = e'.totalDuration := by
  have hdurations : (e.notes.map fun n => n.duration.value)
      = e'.notes.map fun n => n.duration.value := map_eq_map_of_forall₂ h
  rw [e.totalDuration_eq, e'.totalDuration_eq, hdurations]

theorem Part.totalDuration_eq_of_alike {p p' : Part}
    (h : List.Forall₂ (Event.Alike Note.SameDuration) p.events p'.events) :
    p.totalDuration = p'.totalDuration := by
  rw [Part.totalDuration, Part.totalDuration,
    map_eq_map_of_forall₂ (h.imp fun _ _ halike => halike.totalDuration_eq)]

theorem Piece.Alike.totalDuration_eq (h : p.Alike Note.SameDuration p') :
    (Music.piece p).totalDuration = (Music.piece p').totalDuration := by
  have hparts : p.parts.map Part.totalDuration = p'.parts.map Part.totalDuration :=
    map_eq_map_of_forall₂ (List.Forall₂.imp (fun _ _ => Part.totalDuration_eq_of_alike) h)
  show p.totalDuration = p'.totalDuration
  rw [Piece.totalDuration, Piece.totalDuration, hparts]

theorem Piece.Alike.frequencies_eq (h : p.Alike Note.SameValues p') :
    (Music.piece p).frequencies = (Music.piece p').frequencies := by
  rw [Music.frequencies, Music.frequencies,
    map_eq_map_of_forall₂ (h.forall₂_notes.imp fun _ _ hn => hn.frequency)]

/-- Measures of music. -/
structure Music.Measures where
  frequencies : List Number
  lowest : Number
  totalDuration : Number
  height : Nat
  scale : List Number
  intervals : List (List Number)

/-- All that is measured of some music. -/
def Music.measures (music : Music) : Music.Measures where
  frequencies := music.frequencies
  lowest := music.lowest
  totalDuration := music.totalDuration
  height := music.height
  scale := music.scale
  intervals := Report.intervals music.frequencies

/-- Pieces of one shape and of the same values have the same measures. -/
theorem Piece.Alike.measures_eq (h : p.Alike Note.SameValues p') :
    (Music.piece p).measures = (Music.piece p').measures := by
  have hduration := (h.imp fun _ _ hn => hn.duration : p.Alike Note.SameDuration p').totalDuration_eq
  simp only [Music.measures, Music.lowest, Music.scale, h.frequencies_eq, hduration, h.height_eq]

end Values

end JustIntonation
