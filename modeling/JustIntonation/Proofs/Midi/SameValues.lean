/-
JustIntonation/Proofs/Midi/SameValues.lean

A file depends on values, not on how they are written.

`3/2*5/4` and `15/8` are different quantities of one value.  Durations,
velocities, bends and keys are computed from values, so notes that are equal
in value are struck alike (`Stroke.bent_agree`, `Stroke.mapped_agree`), and
the keyboard of a piece is made for its frequencies as they compare.  Only
the faults of a duration name it as it is written (`Fault.Alike`).

Main result: pieces of one shape whose notes are equal in value, one by one,
have the same files and the same measures (`same_values`).
-/
import JustIntonation.Proofs.Midi.Alike

namespace JustIntonation

/-- Faults that are the same up to how a duration is written. -/
inductive Fault.Alike : Fault → Fault → Prop
  | same (f : Fault) : Alike f f
  | fractionalTicks {d d' : Quantity} (ticksPerBeat : Nat) (value : d.value = d'.value) :
      Alike (.violation (.fractionalTicks d ticksPerBeat))
        (.violation (.fractionalTicks d' ticksPerBeat))
  | ticksOutOfRange {d d' : Quantity} (value : d.value = d'.value) :
      Alike (.violation (.ticksOutOfRange d)) (.violation (.ticksOutOfRange d'))

namespace Midi

/-! ### Notes -/

theorem durationTicks_agree {d d' : Quantity} (h : d.value = d'.value) (ticksPerBeat : Nat) :
    Agree Fault.Alike (durationTicks ticksPerBeat d) (durationTicks ticksPerBeat d') := by
  rw [durationTicks, durationTicks, ← h]
  -- Exact or not, the ticks are those of the value; a fault names the quantity.
  split
  all_goals
    dsimp only
    split_ifs
    · exact .ok _
    · exact .error (.ticksOutOfRange h)
    · exact .error (.fractionalTicks ticksPerBeat h)

theorem velocityOf_congr {v v' : Quantity} (h : v.value = v'.value) :
    velocityOf v = velocityOf v' := by
  rw [velocityOf, velocityOf, h]

variable {n n' : Note}

theorem Stroke.bent_agree (h : n.SameValues n') (f0 : Binary64) (bendRange ticksPerBeat : Nat) :
    Agree Fault.Alike (Stroke.bent f0 bendRange ticksPerBeat n)
      (Stroke.bent f0 bendRange ticksPerBeat n') := by
  rw [Stroke.bent, Stroke.bent, h.frequency, velocityOf_congr h.volume]
  split_ifs
  · exact .refl .same _
  · exact (durationTicks_agree h.duration ticksPerBeat).bind fun ticks => .refl .same _

theorem Stroke.mapped_agree (h : n.SameValues n') (keys : Tuning.KeyMap) (ticksPerBeat : Nat) :
    Agree Fault.Alike (Stroke.mapped keys ticksPerBeat n) (Stroke.mapped keys ticksPerBeat n') := by
  rw [Stroke.mapped, Stroke.mapped, h.isRest_eq, h.frequency, velocityOf_congr h.volume]
  exact (durationTicks_agree h.duration ticksPerBeat).bind fun ticks => .refl .same _

/-! ### Files -/

variable {p p' : Piece}

theorem keyboard_congr (h : p.Alike Note.SameValues p') (f0 : Binary64) :
    Music.keyboard f0 (.piece p) = Music.keyboard f0 (.piece p') := by
  rw [Music.keyboard, Music.keyboard, h.frequencies_eq]

theorem allParts_agree (h : p.Alike Note.SameValues p') (options : Options) :
    Agree Fault.Alike (allParts options p.parts) (allParts options p'.parts) := by
  rw [allParts, allParts]
  cases options.tuning with
  | pitchBend =>
    have hbent := bentParts_agree .same (h.imp fun _ _ hn => Stroke.bent_agree hn options.f0
      options.bendRange options.ticksPerBeat) 0 bendChannels
    exact hbent.bind fun tracks => .ok _
  | scala =>
    simp only [keyboard_congr h, h.length_eq]
    split_ifs
    · exact .refl .same _
    · refine (Agree.refl .same _).bind fun k => ?_
      have hmapped := mappedParts_agree .same (h.imp fun _ _ hn => Stroke.mapped_agree hn k.keys
        options.ticksPerBeat) 0
      exact hmapped.bind fun tracks => .ok _

theorem ofPiece_agree (h : p.Alike Note.SameValues p') (options : Options) :
    Agree Fault.Alike (File.ofPiece options p) (File.ofPiece options p') := by
  rw [File.ofPiece, File.ofPiece, h.length_eq]
  refine (Agree.refl .same _).bind fun tempo => ?_
  exact (allParts_agree h options).bind fun laid => .refl .same _

/-- Pieces of one shape whose notes are equal in value, one by one, have the same file or are
refused with the same fault, up to how a duration is written, and all their measures are the
same. -/
theorem same_values (h : p.Alike Note.SameValues p') :
    (∀ options : Options,
      (∀ f, File.ofPiece options p = .ok f ↔ File.ofPiece options p' = .ok f) ∧
      ∀ fault, File.ofPiece options p = .error fault →
        ∃ fault', File.ofPiece options p' = .error fault' ∧ fault.Alike fault') ∧
    (Music.piece p).measures = (Music.piece p').measures :=
  ⟨fun options => ⟨(ofPiece_agree h options).eq_ok_iff,
    fun _ => (ofPiece_agree h options).exists_error⟩, h.measures_eq⟩

/-- A chord of a note and a second one, both of one duration. -/
def twoNotes (frequency duration : Quantity) : Piece :=
  ⟨[⟨[.chord [⟨.one, duration, .one⟩, ⟨frequency, duration, .one⟩]]⟩]⟩

def ratioOf (n d : Nat) (h : d ≠ 0) : Ratio := .ofTerms n d (Int.natCast_ne_zero.mpr h)

/-- A seventh and a duration that are written in steps. -/
def inSteps : Piece :=
  twoNotes (.product ⟨[ratioOf 3 2 (Nat.succ_ne_zero 1), ratioOf 5 4 (Nat.succ_ne_zero 3)]⟩)
    (.product ⟨[ratioOf 1 2 (Nat.succ_ne_zero 1), ratioOf 1 2 (Nat.succ_ne_zero 1)]⟩)

/-- The same in one number each. -/
def atOnce : Piece :=
  twoNotes (.ratio (ratioOf 15 8 (Nat.succ_ne_zero 7))) (.ratio (ratioOf 1 4 (Nat.succ_ne_zero 3)))

theorem same_values_seventh : inSteps ≠ atOnce ∧ inSteps.Alike Note.SameValues atOnce ∧
    (∃ f, File.ofPiece {} inSteps = .ok f ∧ File.ofPiece {} atOnce = .ok f) ∧
    (∃ fault fault', File.ofPiece { ticksPerBeat := 1 } inSteps = .error fault ∧
      File.ofPiece { ticksPerBeat := 1 } atOnce = .error fault' ∧ fault.Alike fault') ∧
    (Music.piece inSteps).measures = (Music.piece atOnce).measures := by
  have hvalues : inSteps.Alike Note.SameValues atOnce :=
    .cons (.cons (.cons ⟨rfl, by decide +kernel, rfl⟩
      (.cons ⟨by decide +kernel, by decide +kernel, rfl⟩ .nil)) .nil) .nil
  obtain ⟨f, hf⟩ := exists_eq_ok (x := File.ofPiece {} inSteps) (by decide +kernel)
  have hfault : File.ofPiece { ticksPerBeat := 1 } inSteps
      = .error (.violation (.fractionalTicks (.product ⟨[ratioOf 1 2 (Nat.succ_ne_zero 1),
        ratioOf 1 2 (Nat.succ_ne_zero 1)]⟩) 1)) :=
    (map_eq_error (f := fun _ => ())).mp (by decide +kernel)
  obtain ⟨hfiles, hmeasures⟩ := same_values hvalues
  obtain ⟨fault', hfault', halike⟩ := (hfiles { ticksPerBeat := 1 }).2 _ hfault
  exact ⟨by decide +kernel, hvalues, ⟨f, hf, ((hfiles {}).1 f).mp hf⟩,
    ⟨_, fault', hfault, hfault', halike⟩, hmeasures⟩

end Midi

end JustIntonation
