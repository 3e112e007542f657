/-
JustIntonation/Proofs/Midi/Allocation.lean

Which channels the parts of a bent file get.

There are fourteen channels for bent notes.  The parts take theirs one behind
the other, each as many as it is high, so the channels of all parts together
are a first piece of the fourteen (`bentParts_eq_ok`), and each part keeps to
its own.  When the channels run out, they do so at the first part that is too
high for what the parts before it have left (`exhausted_of_bentParts`).

Main result: both, for the file of a piece (`channel_allocation`).
-/
import JustIntonation.Proofs.Midi.Refusal
import JustIntonation.Proofs.Midi.Undisturbed
import Mathlib.Order.Bounds.Defs

namespace JustIntonation

/-- How many channels the parts before `index` take. -/
def Piece.heightBefore (p : Piece) (index : ℕ) : ℕ := ((p.parts.take index).map Part.height).sum

namespace Midi

/-! ### Channels of a part -/

/-- The track of a part that has channels of its own: all its messages are on them, its program,
if it has one, is set on each of them, and the notes of an event are on the first of them, one
each, in their order. -/
structure PlaysOn (options : Options) (index : ℕ) (p : Part) (channels : List Channel)
    (t : Track) : Prop where
  messages : ∀ m ∈ t.timed, ∃ c ∈ channels, m.2.channel? = some c
  gestures : ∃ program gestures, programOf options.programs index = .ok program ∧
    t.timed = (programMessages program channels).map (0, ·) ++ gestures.flatMap Gesture.timed ∧
    Plays (Stroke.bent options.f0 options.bendRange options.ticksPerBeat) (fun _ => channels) 0
      p.events gestures ∧
    ∀ g ∈ gestures, ∀ (k : ℕ) (v : Voice), g.voices[k]? = some v → channels[k]? = some v.channel

/-- How the parts of a bent file share the channels. -/
structure Allocated (options : Options) (piece : Piece) (f : File) : Prop where
  total : piece.heightBefore piece.parts.length ≤ 14
  channels : f.channels.flatten.map Fin.val
    = [1, 2, 3, 4, 5, 6, 7, 8, 10, 11, 12, 13, 14, 15].take
        (piece.heightBefore piece.parts.length)
  counts : f.channels.map List.length = piece.parts.map Part.height
  parts : ∀ (index : ℕ) (p : Part), piece.parts[index]? = some p → ∃ channels t,
    f.channels[index]? = some channels ∧ f.tracks[index + 1]? = some t ∧
    PlaysOn options index p channels t

/-- The channels run out at a part: it is the first with which the parts need more than there
are. -/
structure Exhausted (piece : Piece) (part needed available : ℕ) : Prop where
  least : IsLeast {i | i < piece.parts.length ∧ 14 < piece.heightBefore (i + 1)} part
  needed : piece.parts[part]?.map Part.height = some needed
  available : piece.heightBefore part + available = 14

variable {strike : Note → Except Fault Stroke} {spread : Event → List Channel}

/-- The voices of an event are on the channels that are spread for it, in their order. -/
theorem Plays.getElem?_channel {now : Nat} {events : List Event} {gestures : List Gesture}
    (h : Plays strike spread now events gestures) :
    ∀ g ∈ gestures, ∃ e ∈ events, ∀ (k : ℕ) (v : Voice), g.voices[k]? = some v →
      (spread e)[k]? = some v.channel := by
  induction h with
  | finish => simp
  | silent _ _ ih =>
    intro g hg
    obtain ⟨e, he, hchannels⟩ := ih g hg
    exact ⟨e, List.mem_cons_of_mem _ he, hchannels⟩
  | @sound now e es gs g _ _ _ channels _ _ _ ih =>
    intro g' hg'
    obtain rfl | hg' := List.mem_cons.mp hg'
    · refine ⟨e, List.mem_cons_self, fun k v hv => ?_⟩
      have hk : ((spread e).take e.notes.length)[k]? = some v.channel := by
        rw [← channels, List.getElem?_map, hv, Option.map_some]
      rw [List.getElem?_take] at hk
      exact (Option.ite_none_right_eq_some.mp hk).2
    · obtain ⟨e, he, hchannels⟩ := ih g' hg'
      exact ⟨e, List.mem_cons_of_mem _ he, hchannels⟩

/-- All that a line sends is on its channels. -/
theorem Line.exists_channel {l : Line} {events : List Event}
    (h : Plays strike (fun _ => l.channels) 0 events l.gestures) :
    ∀ m ∈ l.timed, ∃ c ∈ l.channels, m.2.channel? = some c := by
  intro m hm
  have hchannel : ∃ c, m.2.channel? = some c := by
    rcases List.mem_append.mp hm with hm | hm
    · obtain ⟨_, hmessage, rfl⟩ := List.mem_map.mp hm
      obtain ⟨_, -, c, -, rfl⟩ := mem_programMessages hmessage
      exact ⟨c, rfl⟩
    · obtain ⟨g, -, hm⟩ := List.mem_flatMap.mp hm
      obtain ⟨v, -, ⟨_, -, rfl⟩ | rfl | rfl⟩ := Gesture.mem_timed hm
      all_goals exact ⟨v.channel, rfl⟩
  obtain ⟨c, hc⟩ := hchannel
  refine ⟨c, ?_, hc⟩
  -- On any other channel the line is silent.
  by_contra hother
  exact Line.silent h hother m hm hc

theorem Lines.playsOn {options : Options} {ps : List Part} {lines : List Line}
    (h : Lines (Stroke.bent options.f0 options.bendRange options.ticksPerBeat)
      (fun channels _ => channels) options.programs 0 ps lines) {index : ℕ} {p : Part}
    (hp : ps[index]? = some p) : ∃ l, lines[index]? = some l ∧
      ∀ t : Track, t.timed = l.timed → PlaysOn options index p l.channels t := by
  obtain ⟨l, hl, hprogram, hplays⟩ := h.exists_line hp
  rw [Nat.zero_add] at hprogram
  refine ⟨l, hl, fun t ht => ⟨?_, l.program, l.gestures, hprogram, ht, hplays, ?_⟩⟩
  · rw [ht]
    exact Line.exists_channel hplays
  · intro g hg
    obtain ⟨e, -, hchannels⟩ := hplays.getElem?_channel g hg
    exact hchannels

/-! ### All channels -/

variable {options : Options} {piece : Piece} {f : File}

theorem map_val_bendChannels :
    bendChannels.map Fin.val = [1, 2, 3, 4, 5, 6, 7, 8, 10, 11, 12, 13, 14, 15] := rfl

/-- The parts of a file with bent notes have the first of the channels, one behind the other. -/
theorem allocated_of_ofPiece (htuning : options.tuning = .pitchBend)
    (h : File.ofPiece options piece = .ok f) : Allocated options piece f := by
  obtain ⟨-, -, -, hparts⟩ := ofPiece_eq_ok h
  obtain ⟨-, -, hbent⟩ | ⟨_, hscala, -⟩ := allParts_eq_ok hparts
  · obtain ⟨lines, hrenders, hlines, hheights, hprefix⟩ := bentParts_eq_ok hbent
    have hchannels : f.channels = lines.map (·.channels) := hrenders.map_channels
    have hcounts : f.channels.map List.length = piece.parts.map Part.height := by
      rw [hchannels, List.map_map]
      exact hheights
    have hlength : f.channels.flatten.length = piece.heightBefore piece.parts.length := by
      rw [List.length_flatten, hcounts, Piece.heightBefore, List.take_length]
    rw [← hchannels] at hprefix
    refine ⟨?_, ?_, hcounts, ?_⟩
    · rw [← hlength]
      exact hprefix.length_le
    · rw [← hlength, ← map_val_bendChannels, ← List.map_take,
        ← List.prefix_iff_eq_take.mp hprefix]
    · intro index p hp
      obtain ⟨l, hl, hplays⟩ := hlines.playsOn hp
      obtain ⟨t, ht, htimed⟩ := hrenders.exists_track hl
      refine ⟨l.channels, t, ?_, ?_, hplays t htimed⟩
      · rw [hchannels, List.getElem?_map, hl, Option.map_some]
      · rw [File.tracks, List.getElem?_cons_succ]
        exact ht
  · rw [htuning] at hscala
    cases hscala

/-! ### Exhaustion -/

/-- What a part with channels enough fails with is no lack of channels. -/
theorem partTrack_bent_ne_exhausted {channels : List Channel} {program : Option Nat} {p : Part}
    (hroom : ∀ e ∈ p.events, e.notes.length ≤ channels.length) (part needed available : ℕ) :
    partTrack (Stroke.bent options.f0 options.bendRange options.ticksPerBeat) (fun _ => channels)
      channels program p ≠ .error (.violation (.channelsExhausted part needed available)) := by
  intro h
  obtain ⟨e, -, ⟨n, -, hstroke⟩ | ⟨hunequal, -⟩⟩ :=
    partTrack_eq_error hroom (fun _ _ hs => (Stroke.bent_eq_ok hs).1) h
  · obtain ⟨-, hzero⟩ | hfault := Stroke.bent_eq_error hstroke
    · cases hzero
    · cases hfault
  · cases hunequal

/-- The channels run out at a part that is higher than what the parts before it leave. -/
theorem exhausted_of_bentParts {ps : List Part} {part needed available : ℕ} :
    ∀ {index : ℕ} {free : List Channel}, bentParts options index free ps
        = .error (.violation (.channelsExhausted part needed available)) →
      ∃ i p, part = index + i ∧ ps[i]? = some p ∧ needed = p.height ∧ available < needed ∧
        ((ps.take i).map Part.height).sum + available = free.length := by
  induction ps with
  | nil => exact nofun
  | cons p ps ih =>
    intro index free h
    simp only [bentParts, ite_throw_eq_error, bind_eq_error, pure_ne_error, and_false,
      exists_false, or_false] at h
    obtain ⟨hfew, hfault⟩ | ⟨hroom, hprogram | ⟨_, -, htrack | ⟨_, -, hrest⟩⟩⟩ := h
    · simp only [Fault.violation.injEq, Violation.channelsExhausted.injEq] at hfault
      obtain ⟨rfl, rfl, rfl⟩ := hfault
      exact ⟨0, p, rfl, rfl, rfl, hfew, Nat.zero_add _⟩
    · obtain ⟨_, -, -, hfault⟩ := programOf_eq_error hprogram
      cases hfault
    · exact absurd htrack (partTrack_bent_ne_exhausted (length_le_take_height hroom) _ _ _)
    · obtain ⟨i, q, rfl, hq, hneeded, hfew, hsum⟩ := ih hrest
      refine ⟨i + 1, q, by omega, by rwa [List.getElem?_cons_succ], hneeded, hfew, ?_⟩
      rw [List.length_drop] at hsum
      rw [List.take_succ_cons, List.map_cons, List.sum_cons]
      omega

theorem bentParts_of_ofPiece_eq_error (htuning : options.tuning = .pitchBend)
    {part needed available : ℕ}
    (h : File.ofPiece options piece
      = .error (.violation (.channelsExhausted part needed available))) :
    bentParts options 0 bendChannels piece.parts
      = .error (.violation (.channelsExhausted part needed available)) := by
  simp only [File.ofPiece, bind_eq_error, ite_throw_eq_error, pure_ne_error, and_false, or_false]
    at h
  obtain htempo | ⟨_, -, hparts | ⟨_, -, -, hfault⟩⟩ := h
  · simp only [tempoTrack] at htempo
    split_ifs at htempo
    cases htempo
  · simpa only [allParts, htuning, bind_eq_error, pure_ne_error, and_false, exists_false,
      or_false] using hparts
  · cases hfault

/-- The more parts, the more channels they take. -/
theorem heightBefore_mono (piece : Piece) : Monotone piece.heightBefore := by
  intro i j hij
  exact ((List.take_sublist_take_left hij).map Part.height).sum_le_sum fun _ _ => Nat.zero_le _

theorem exhausted_of_ofPiece (htuning : options.tuning = .pitchBend) {part needed available : ℕ}
    (h : File.ofPiece options piece
      = .error (.violation (.channelsExhausted part needed available))) :
    Exhausted piece part needed available := by
  obtain ⟨i, p, hi, hp, rfl, hfew, hsum⟩ :=
    exhausted_of_bentParts (bentParts_of_ofPiece_eq_error htuning h)
  rw [Nat.zero_add] at hi
  subst hi
  have hbefore : piece.heightBefore part + available = 14 := hsum
  have hafter : piece.heightBefore (part + 1) = piece.heightBefore part + p.height := by
    rw [Piece.heightBefore, List.take_add_one, hp]
    simp [Piece.heightBefore]
  refine ⟨⟨⟨(List.getElem?_eq_some_iff.mp hp).1, by omega⟩, ?_⟩, by rw [hp, Option.map_some],
    hbefore⟩
  -- Up to an earlier part there are no more than before this one, which fit.
  rintro j ⟨-, hj⟩
  by_contra hlt
  have hmono := heightBefore_mono piece (show j + 1 ≤ part by omega)
  omega

/-- No piece is refused for an event with more notes than its part has channels. -/
theorem ofPiece_ne_tooFewChannels (notes channels : ℕ) :
    File.ofPiece options piece ≠ .error (.breach (.tooFewChannels notes channels)) := by
  intro h
  cases refusal_of_ofPiece h with
  | stroke _ fault => cases fault

/-- Under pitch bend the channels of a file are the first of the fourteen that there are, each
part has as many as it is high and keeps to them, the notes of an event in their order; when they
run out, it is at the first part that they do not suffice for, and they never run out within
a part. -/
theorem channel_allocation (htuning : options.tuning = .pitchBend) :
    (∀ f, File.ofPiece options piece = .ok f → Allocated options piece f) ∧
    (∀ part needed available, File.ofPiece options piece
        = .error (.violation (.channelsExhausted part needed available)) →
      Exhausted piece part needed available) ∧
    ∀ notes channels,
      File.ofPiece options piece ≠ .error (.breach (.tooFewChannels notes channels)) :=
  ⟨fun _ h => allocated_of_ofPiece htuning h, fun _ _ _ h => exhausted_of_ofPiece htuning h,
    ofPiece_ne_tooFewChannels⟩

/-- Chords of the note one, for each part one with as many notes as are listed. -/
def unisons (sizes : List ℕ) : Piece :=
  ⟨sizes.map fun size => ⟨[.chord (List.replicate size ⟨.one, .one, .one⟩)]⟩⟩

theorem channel_allocation_octave :
    (∃ f, bentFromMiddleC.tuning = .pitchBend ∧
      File.ofPiece bentFromMiddleC octaveAndRest = .ok f ∧
      Allocated bentFromMiddleC octaveAndRest f) ∧
    File.ofPiece bentFromMiddleC (unisons [8, 7])
      = .error (.violation (.channelsExhausted 1 7 6)) ∧
    Exhausted (unisons [8, 7]) 1 7 6 := by
  have hmade : (File.ofPiece bentFromMiddleC octaveAndRest).isOk = true := by decide +kernel
  obtain ⟨f, hf⟩ := exists_eq_ok hmade
  have hfew : File.ofPiece bentFromMiddleC (unisons [8, 7])
      = .error (.violation (.channelsExhausted 1 7 6)) :=
    (map_eq_error (f := fun _ => ())).mp (by decide +kernel)
  exact ⟨⟨f, rfl, hf, (channel_allocation rfl).1 f hf⟩, hfew,
    (channel_allocation rfl).2.1 1 7 6 hfew⟩

end Midi

end JustIntonation
