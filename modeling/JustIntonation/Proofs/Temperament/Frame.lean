/-
JustIntonation/Proofs/Temperament/Frame.lean

What tempering leaves alone.

Of a note tempering replaces the frequency, and that of a sounding note only
(`Note.tempered_of_temper`).  Two tests tell what sounds, one for products and
one for all else, which goes by the logarithm; the classes `IsSilent` and
`IsPitch` say what they come to.  Since a piece is tempered note by note, it
keeps its shape, and every place inside lasts as long and is as high as
before.

Main result: `temper_frame`.
-/
import JustIntonation.Proofs.Music.Shape
import JustIntonation.Proofs.Temperament

namespace JustIntonation

open Temperament

/-! ### Frequencies -/

namespace Quantity

/-- A ratio or a product that is zero. -/
def IsSilent : Quantity → Prop
  | .ratio r => r.value = 0
  | .product p => p.value = 0
  | .power _ => False

/-- A ratio or a product other than zero, or a power of a positive base. -/
def IsPitch : Quantity → Prop
  | .ratio r => r.value ≠ 0
  | .product p => p.value ≠ 0
  | .power p => 0 < p.base

variable {divisions : ℕ} {q : Quantity}

theorem IsSilent.frequencySteps_eq (h : q.IsSilent) : frequencySteps divisions q = none := by
  cases q with
  | ratio r =>
    have hzero : (Quantity.ratio r).value.isZero = true := decide_eq_true h
    simp [frequencySteps, log2, hzero]
  | product p => exact if_pos h
  | power p => cases h

theorem IsPitch.exists_frequencySteps (h : q.IsPitch) (divisions : ℕ) :
    ∃ steps, frequencySteps divisions q = some steps := by
  cases q with
  | ratio r =>
    have hne : (Quantity.ratio r).value.isZero = false := decide_eq_false h
    simp [frequencySteps, log2, hne]
  | product p => exact ⟨_, if_neg h⟩
  | power p =>
    have hbase : 0 < p.base := h
    simp [frequencySteps, log2, hbase]

end Quantity

/-! ### Notes -/

/-- A note and what tempering makes of it. -/
structure Note.Tempered (divisions : ℕ) (n n' : Note) : Prop where
  duration : n'.duration = n.duration
  volume : n'.volume = n.volume
  silent : n.frequency.IsSilent → n' = n
  pitch : n.frequency.IsPitch → ∃ steps, n'.frequency = .power ⟨2, steps, divisions⟩
  other : n' = n ∨ ∃ steps, n'.frequency = .power ⟨2, steps, divisions⟩

section Notes

variable {divisions : ℕ} {n n' : Note}

theorem Note.temper_zero (n : Note) : n.temper 0 = .error (.violation .zeroDivisions) := rfl

theorem Note.tempered_of_temper (h : n.temper divisions = .ok n') : n.Tempered divisions n' := by
  rw [Note.temper] at h
  split_ifs at h
  cases hsteps : frequencySteps divisions n.frequency with
  | some steps =>
    rw [hsteps] at h
    obtain rfl := Except.ok.inj h
    have hmoved : ∃ steps', Quantity.power ⟨2, steps, divisions⟩ = .power ⟨2, steps', divisions⟩ :=
      ⟨steps, rfl⟩
    refine ⟨rfl, rfl, fun hsilent => ?_, fun _ => hmoved, .inr hmoved⟩
    rw [hsilent.frequencySteps_eq] at hsteps
    cases hsteps
  | none =>
    rw [hsteps] at h
    obtain rfl := Except.ok.inj h
    refine ⟨rfl, rfl, fun _ => rfl, fun hpitch => ?_, .inl rfl⟩
    obtain ⟨steps, hsome⟩ := hpitch.exists_frequencySteps divisions
    rw [hsome] at hsteps
    cases hsteps

theorem Note.Tempered.sameDuration (h : n.Tempered divisions n') : n.SameDuration n' := by
  rw [SameDuration, h.duration]

end Notes

/-! ### Pieces -/

section Pieces

variable {divisions : ℕ} {p tempered : Piece}

/-- Without a division there is nothing to move a note to. -/
theorem Piece.temper_zero (p : Piece) :
    p.temper (some 0) =
      if (Music.piece p).notes = [] then .ok p else .error (.violation .zeroDivisions) := by
  split_ifs with hnotes
  · apply Piece.mapNotes_eq_self
    rw [hnotes]
    exact List.forall_mem_nil _
  · cases htemper : p.temper (some 0) with
    | ok tempered =>
      obtain ⟨n, hn⟩ := List.exists_mem_of_ne_nil _ hnotes
      obtain ⟨n', -, hn'⟩ := (Piece.sameShape_mapNotes htemper).alike.exists_right hn
      cases hn'
    | error fault =>
      obtain ⟨n, -, hn⟩ := Piece.exists_of_mapNotes_eq_error htemper
      rw [Note.temper_zero] at hn
      rw [Except.error.inj hn]

theorem Piece.sameShape_temper (h : p.temper (some divisions) = .ok tempered) :
    p.SameShape (Note.Tempered divisions) tempered :=
  (Piece.sameShape_mapNotes h).imp fun _ _ => Note.tempered_of_temper

/-- Tempering touches nothing but frequencies that sound.  With no division asked for, the piece is
as it was; a division into no steps is refused where there is a note.  Any other gives a piece of
the same shape, in which each note has its duration and volume, rests are as they were and pitches
stand on steps of the division, and in which every place lasts as long and is as high as before. -/
theorem temper_frame :
    (∀ p : Piece, p.temper none = .ok p) ∧
    (∀ p : Piece, p.temper (some 0) =
      if (Music.piece p).notes = [] then .ok p else .error (.violation .zeroDivisions)) ∧
    ∀ (p : Piece) (divisions : ℕ), 0 < divisions →
      ∃ tempered, p.temper (some divisions) = .ok tempered ∧
        p.SameShape (Note.Tempered divisions) tempered ∧
        ∀ path, Option.Rel
          (fun node node' => node'.totalDuration = node.totalDuration ∧ node'.height = node.height)
          ((Music.piece p).node? path) ((Music.piece tempered).node? path) := by
  refine ⟨fun p => rfl, Piece.temper_zero, ?_⟩
  intro p divisions hdivisions
  obtain ⟨tempered, htempered⟩ := Piece.exists_mapNotes_eq_ok (p := p)
    fun n _ => Note.exists_temper (Nat.ne_of_gt hdivisions) n
  have hshape : p.SameShape (Note.Tempered divisions) tempered := Piece.sameShape_temper htempered
  refine ⟨tempered, htempered, hshape, fun path => ?_⟩
  have hdurations : p.SameShape Note.SameDuration tempered :=
    hshape.imp fun _ _ => Note.Tempered.sameDuration
  have hnode := (Music.SameShape.piece hdurations).node? path
  generalize (Music.piece p).node? path = node, (Music.piece tempered).node? path = node' at hnode
  cases hnode with
  | none => exact .none
  | some hnode => exact .some ⟨hnode.totalDuration_eq.symm, hnode.height_eq.symm⟩

/-- A Pythagorean third and a tempered fifth together, and then a rest. -/
def thirdFifthAndRest : Piece :=
  ⟨[⟨[.chord [⟨.ratio (.ofTerms 81 64 (by decide)), .one, .one⟩, ⟨.power ⟨2, 7, 12⟩, .one, .one⟩],
    .note (.rest .one)]⟩]⟩

theorem temper_frame_thirdFifthAndRest : 0 < 19 ∧
    ∃ tempered, thirdFifthAndRest.temper (some 19) = .ok tempered ∧
      thirdFifthAndRest.SameShape (Note.Tempered 19) tempered ∧
      ∀ path, Option.Rel
        (fun node node' => node'.totalDuration = node.totalDuration ∧ node'.height = node.height)
        ((Music.piece thirdFifthAndRest).node? path) ((Music.piece tempered).node? path) :=
  ⟨by decide, temper_frame.2.2 thirdFifthAndRest 19 (by decide)⟩

end Pieces

end JustIntonation
