/-
JustIntonation/Proofs/Midi/Alike.lean

Pieces that are written alike.

What is written of a piece depends on its shape and on how its notes are
struck, and on nothing else.  So pieces of one shape whose notes are struck
alike, one by one, have the same tracks, or are refused with related faults
(`bentParts_agree`, `mappedParts_agree`).
-/
import JustIntonation.Midi.File
import JustIntonation.Proofs.Music.Measure

namespace JustIntonation.Midi

variable {r : Fault → Fault → Prop} {strike strike' : Note → Except Fault Stroke}

theorem eventSteps_agree (hr : ∀ f, r f f) {e e' : Event}
    (h : e.Alike (fun n n' => Agree r (strike n) (strike' n')) e') (channels : List Channel) :
    Agree r (eventSteps strike channels e) (eventSteps strike' channels e') := by
  have hempty : e.notes.isEmpty = e'.notes.isEmpty := by
    rw [Bool.eq_iff_iff, List.isEmpty_iff_length_eq_zero, List.isEmpty_iff_length_eq_zero,
      h.length_eq]
  rw [eventSteps, eventSteps, hempty, h.length_eq]
  split_ifs
  · exact .ok []
  · exact .error (hr _)
  · exact (Agree.mapM h).bind fun strokes => .refl hr _

theorem partTrack_agree (hr : ∀ f, r f f) {spread spread' : Event → List Channel} {p p' : Part}
    (h : List.Forall₂ (fun e e' => spread e = spread' e' ∧
      e.Alike (fun n n' => Agree r (strike n) (strike' n')) e') p.events p'.events)
    (channels : List Channel) (program : Option Nat) :
    Agree r (partTrack strike spread channels program p)
      (partTrack strike' spread' channels program p') := by
  have hsteps : List.Forall₂ (fun e e' => Agree r (eventSteps strike (spread e) e)
      (eventSteps strike' (spread' e') e')) p.events p'.events := by
    refine h.imp fun e e' ⟨hspread, halike⟩ => ?_
    rw [hspread]
    exact eventSteps_agree hr halike _
  exact (Agree.mapM hsteps).bind fun events => .ok _

/-- Parts of one shape whose notes are bent alike are written alike. -/
theorem bentParts_agree (hr : ∀ f, r f f) {options : Options} {ps ps' : List Part}
    (h : List.Forall₂ (fun p p' => List.Forall₂ (Event.Alike fun n n' =>
      Agree r (Stroke.bent options.f0 options.bendRange options.ticksPerBeat n)
        (Stroke.bent options.f0 options.bendRange options.ticksPerBeat n'))
      p.events p'.events) ps ps') (index : Nat) (free : List Channel) :
    Agree r (bentParts options index free ps) (bentParts options index free ps') := by
  induction h generalizing index free with
  | nil => exact .ok []
  | @cons p p' ps ps' hp _ ih =>
    rw [bentParts, bentParts, Part.height_eq_of_alike hp]
    split_ifs
    · exact .error (hr _)
    · refine (Agree.refl hr _).bind fun program => ?_
      refine (partTrack_agree hr (hp.imp fun _ _ halike => ⟨rfl, halike⟩) _ _).bind fun track => ?_
      exact (ih _ _).bind fun rest => .ok _

/-- On keyboards that strike alike, parts of one shape are written alike. -/
theorem mappedParts_agree (hr : ∀ f, r f f) {options : Options} {keys keys' : Tuning.KeyMap}
    {ps ps' : List Part}
    (h : List.Forall₂ (fun p p' => List.Forall₂ (Event.Alike fun n n' =>
      Agree r (Stroke.mapped keys options.ticksPerBeat n)
        (Stroke.mapped keys' options.ticksPerBeat n')) p.events p'.events) ps ps') (index : Nat) :
    Agree r (mappedParts options keys index ps) (mappedParts options keys' index ps') := by
  induction h generalizing index with
  | nil => exact .ok []
  | @cons p p' ps ps' hp _ ih =>
    -- The notes of an event have the one channel, as many times as they are.
    have hspread : List.Forall₂ (fun e e' => (e.notes.map fun _ => Channel.ofNat index)
        = (e'.notes.map fun _ => Channel.ofNat index) ∧ e.Alike (fun n n' =>
          Agree r (Stroke.mapped keys options.ticksPerBeat n)
            (Stroke.mapped keys' options.ticksPerBeat n')) e') p.events p'.events := by
      refine hp.imp fun e e' halike => ⟨?_, halike⟩
      rw [List.map_const', List.map_const', halike.length_eq]
    rw [mappedParts, mappedParts]
    refine (Agree.refl hr _).bind fun program => ?_
    refine (partTrack_agree hr hspread _ _).bind fun track => ?_
    exact (ih _).bind fun rest => .ok _

/-- On retuned keyboards that strike alike, parts of one shape are written the same. -/
theorem mappedParts_congr {options : Options} {keys keys' : Tuning.KeyMap} {ps ps' : List Part}
    (h : List.Forall₂ (fun p p' => List.Forall₂ (Event.Alike fun n n' =>
      Stroke.mapped keys options.ticksPerBeat n = Stroke.mapped keys' options.ticksPerBeat n')
      p.events p'.events) ps ps') (index : Nat) :
    mappedParts options keys index ps = mappedParts options keys' index ps' := by
  refine (mappedParts_agree (r := Eq) (fun _ => rfl) ?_ index).eq
  exact h.imp fun _ _ => .imp fun _ _ => .imp fun _ _ => .of_eq fun _ => rfl

end JustIntonation.Midi
