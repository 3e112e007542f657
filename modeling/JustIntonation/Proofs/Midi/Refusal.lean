/-
JustIntonation/Proofs/Midi/Refusal.lean

Why a piece is refused as a file.

Each step of a file can fail in a few ways only, and what it fails with tells
of the piece or of the options: a note has ticks, a key, a bend or a velocity
out of range, the notes of one event last differently, a program is listed
that does not exist.  Some failures are provided for that no file meets: a
part has as many channels as its highest event has notes (`length_le_height`),
and the keyboard of a piece has a key for every note of it.

Main result: the reasons, all of them (`refusal_of_ofPiece`).
-/
import JustIntonation.Proofs.Midi.Stroke
import JustIntonation.Proofs.Midi.Performance
import JustIntonation.Proofs.Music.Measure

namespace JustIntonation.Midi

open Tuning

/-! ### Reasons -/

/-- Why a note cannot be struck. -/
inductive StrokeFault (n : Note) : Fault → Prop
  | fractionalTicks (ticksPerBeat : Nat) :
      StrokeFault n (.violation (.fractionalTicks n.duration ticksPerBeat))
  | ticksOutOfRange : StrokeFault n (.violation (.ticksOutOfRange n.duration))
  | pitchOutOfRange {pitch : Int} (range : ¬(0 ≤ pitch ∧ pitch ≤ 127)) :
      StrokeFault n (.violation (.pitchOutOfRange pitch))
  | bendOutOfRange {bend : Int} (range : ¬(0 ≤ bend ∧ bend ≤ maxBend)) :
      StrokeFault n (.violation (.bendOutOfRange bend))
  | velocityOutOfRange (velocity : Int) :
      StrokeFault n (.violation (.velocityOutOfRange velocity))

/-- Why a piece cannot be written as a file. -/
inductive Refusal (options : Options) (piece : Piece) : Fault → Prop
  | tempoOutOfRange {microseconds : Int} (range : ¬(0 ≤ microseconds ∧ microseconds ≤ 0xFFFFFF)) :
      Refusal options piece (.violation (.tempoOutOfRange microseconds))
  | tooManyParts {available : Nat} (range : available < piece.parts.length) :
      Refusal options piece (.violation (.tooManyParts piece.parts.length available))
  | channelsExhausted {index needed available : Nat} (range : available < needed) :
      Refusal options piece (.violation (.channelsExhausted index needed available))
  | tooManyFrequencies (range : keyCount < (Music.piece piece).frequencies.length) :
      Refusal options piece
        (.violation (.tooManyFrequencies (Music.piece piece).frequencies.length))
  | invalidProgram {program : Nat} (listed : some program ∈ options.programs)
      (range : ¬(1 ≤ program ∧ program ≤ 128)) :
      Refusal options piece (.violation (.invalidProgram program))
  | zeroBendRange (zero : options.bendRange = 0) :
      Refusal options piece (.violation .zeroBendRange)
  | stroke {n : Note} {f : Fault} (mem : n ∈ (Music.piece piece).notes) (fault : StrokeFault n f) :
      Refusal options piece f
  | unequalDurations {p : Part} {e : Event} {n m : Note} (part : p ∈ piece.parts)
      (event : e ∈ p.events) (first : n ∈ e.notes) (second : m ∈ e.notes)
      (unequal : n.duration ≠ m.duration) : Refusal options piece (.breach .unequalDurations)

variable {f : Fault}

/-! ### Strokes -/

theorem durationTicks_eq_error {ticksPerBeat : Nat} {n : Note}
    (h : durationTicks ticksPerBeat n.duration = .error f) : StrokeFault n f := by
  simp only [durationTicks] at h
  -- Exact or not, there are whole ticks out of range, or none.
  split at h
  all_goals
    split_ifs at h
    · obtain rfl := Except.error.inj h
      exact .ticksOutOfRange
    · obtain rfl := Except.error.inj h
      exact .fractionalTicks ticksPerBeat

theorem velocityOf_eq_error {n : Note} (h : velocityOf n.volume = .error f) : StrokeFault n f := by
  simp only [velocityOf] at h
  split_ifs at h
  obtain rfl := Except.error.inj h
  exact .velocityOutOfRange _

theorem Stroke.bent_eq_error {f0 : Binary64} {bendRange ticksPerBeat : Nat} {n : Note}
    (h : Stroke.bent f0 bendRange ticksPerBeat n = .error f) :
    bendRange = 0 ∧ f = .violation .zeroBendRange ∨ StrokeFault n f := by
  simp only [Stroke.bent, ite_throw_eq_error, bind_eq_error] at h
  obtain ⟨hzero, rfl⟩ | ⟨-, hticks | ⟨ticks, -, h⟩⟩ := h
  · exact .inl ⟨hzero, rfl⟩
  · exact .inr (durationTicks_eq_error hticks)
  · right
    split_ifs at h with hrest
    · cases h
    · simp only [bind_eq_error, pure_ne_error, and_false, exists_false, or_false] at h
      obtain hkey | ⟨key, -, hbend | ⟨amount, -, hvelocity⟩⟩ := h
      · simp only [keyOf] at hkey
        split_ifs at hkey with hrange
        obtain rfl := Except.error.inj hkey
        exact .pitchOutOfRange hrange
      · simp only [bendOf] at hbend
        split_ifs at hbend with hrange
        obtain rfl := Except.error.inj hbend
        exact .bendOutOfRange hrange
      · exact velocityOf_eq_error hvelocity

theorem Stroke.mapped_eq_error {keys : KeyMap} {ticksPerBeat : Nat} {n : Note}
    (hkey : n.isRest = false → ∃ key, keys.find? n.frequency.value = some key)
    (h : Stroke.mapped keys ticksPerBeat n = .error f) : StrokeFault n f := by
  simp only [Stroke.mapped, bind_eq_error] at h
  obtain hticks | ⟨ticks, -, h⟩ := h
  · exact durationTicks_eq_error hticks
  · split_ifs at h with hrest
    · cases h
    · obtain ⟨key, hfind⟩ := hkey (Bool.eq_false_iff.mpr hrest)
      rw [hfind] at h
      simp only [bind_eq_error, pure_ne_error, and_false, exists_false, or_false] at h
      exact velocityOf_eq_error h

/-! ### Events -/

theorem sharedTicks_eq_error {strokes : List Stroke} (h : sharedTicks strokes = .error f) :
    f = .breach .unequalDurations ∧ ∃ s ∈ strokes, ∃ s' ∈ strokes, s.ticks ≠ s'.ticks := by
  cases strokes with
  | nil => cases h
  | cons s rest =>
    simp only [sharedTicks] at h
    split_ifs at h with hall
    obtain rfl := Except.error.inj h
    rw [List.all_eq_true] at hall
    push Not at hall
    obtain ⟨s', hs', hticks⟩ := hall
    refine ⟨rfl, s', List.mem_cons_of_mem s hs', s, List.mem_cons_self, ?_⟩
    simpa using hticks

/-- An event that has channels enough fails by one of its notes, or because two of them last
differently. -/
theorem eventSteps_eq_error {strike : Note → Except Fault Stroke} {channels : List Channel}
    {ticksPerBeat : Nat} {e : Event} (hroom : e.notes.length ≤ channels.length)
    (hstrike : ∀ n s, strike n = .ok s → durationTicks ticksPerBeat n.duration = .ok s.ticks)
    (h : eventSteps strike channels e = .error f) :
    (∃ n ∈ e.notes, strike n = .error f) ∨
      f = .breach .unequalDurations ∧ ∃ n ∈ e.notes, ∃ m ∈ e.notes, n.duration ≠ m.duration := by
  simp only [eventSteps] at h
  split_ifs at h with hsilent hfew
  · cases h
  · exact absurd hroom (Nat.not_le.mpr hfew)
  · simp only [bind_eq_error, pure_ne_error, and_false, exists_false, or_false] at h
    obtain hstrokes | ⟨strokes, hstrokes, hticks⟩ := h
    · exact .inl (exists_of_mapM_eq_error hstrokes)
    · obtain ⟨rfl, s, hs, s', hs', hne⟩ := sharedTicks_eq_error hticks
      obtain ⟨n, hn, hstroke⟩ := exists_of_mem_of_mapM_eq_ok hstrokes hs
      obtain ⟨m, hm, hstroke'⟩ := exists_of_mem_of_mapM_eq_ok hstrokes hs'
      refine .inr ⟨rfl, n, hn, m, hm, fun heq => hne ?_⟩
      -- Notes that last equally long have equal ticks.
      have hsame := hstrike n s hstroke
      rw [heq, hstrike m s' hstroke'] at hsame
      exact (Except.ok.inj hsame).symm

/-! ### Parts -/

theorem programOf_eq_error {programs : List (Option Nat)} {index : Nat}
    (h : programOf programs index = .error f) :
    ∃ p, some p ∈ programs ∧ ¬(1 ≤ p ∧ p ≤ 128) ∧ f = .violation (.invalidProgram p) := by
  simp only [programOf] at h
  split at h
  · rename_i p hp
    split_ifs at h with hrange
    refine ⟨p, ?_, hrange, (Except.error.inj h).symm⟩
    obtain hat | ⟨-, hlast⟩ := Option.or_eq_some_iff.mp hp
    · exact List.mem_of_getElem? hat
    · exact List.mem_of_getLast? hlast
  · cases h

/-- A part is as high as any of its events has notes. -/
theorem length_le_height {p : Part} {e : Event} (he : e ∈ p.events) :
    e.notes.length ≤ p.height := by
  rw [← e.height_eq_length]
  exact le_foldl_max (.inr (List.mem_map_of_mem he))

/-- A part that takes as many channels as it is high has enough for each of its events. -/
theorem length_le_take_height {p : Part} {free : List Channel} (hroom : ¬ free.length < p.height) :
    ∀ e ∈ p.events, e.notes.length ≤ (free.take p.height).length := by
  intro e he
  rw [List.length_take, Nat.min_eq_left (Nat.le_of_not_lt hroom)]
  exact length_le_height he

variable {options : Options} {piece : Piece}

/-- A part with channels enough fails by one of its notes, or because two notes of an event last
differently. -/
theorem partTrack_eq_error {strike : Note → Except Fault Stroke} {spread : Event → List Channel}
    {channels : List Channel} {program : Option Nat} {ticksPerBeat : Nat} {p : Part}
    (hroom : ∀ e ∈ p.events, e.notes.length ≤ (spread e).length)
    (hok : ∀ n s, strike n = .ok s → durationTicks ticksPerBeat n.duration = .ok s.ticks)
    (h : partTrack strike spread channels program p = .error f) :
    ∃ e ∈ p.events, (∃ n ∈ e.notes, strike n = .error f) ∨
      f = .breach .unequalDurations ∧ ∃ n ∈ e.notes, ∃ m ∈ e.notes, n.duration ≠ m.duration := by
  simp only [partTrack, bind_eq_error, pure_ne_error, and_false, exists_false, or_false] at h
  obtain ⟨e, he, hsteps⟩ := exists_of_mapM_eq_error h
  exact ⟨e, he, eventSteps_eq_error (hroom e he) hok hsteps⟩

/-- What a part with channels enough fails with is a reason to refuse the piece, if that is so of
every note that cannot be struck. -/
theorem refusal_of_partTrack {strike : Note → Except Fault Stroke} {spread : Event → List Channel}
    {channels : List Channel} {program : Option Nat} {ticksPerBeat : Nat} {p : Part}
    (hp : p ∈ piece.parts) (hroom : ∀ e ∈ p.events, e.notes.length ≤ (spread e).length)
    (hok : ∀ n s, strike n = .ok s → durationTicks ticksPerBeat n.duration = .ok s.ticks)
    (herror : ∀ n ∈ (Music.piece piece).notes, strike n = .error f → Refusal options piece f)
    (h : partTrack strike spread channels program p = .error f) : Refusal options piece f := by
  obtain ⟨e, he, ⟨n, hn, hstroke⟩ | ⟨rfl, n, hn, m, hm, hne⟩⟩ := partTrack_eq_error hroom hok h
  · exact herror n (Piece.mem_notes hp he hn) hstroke
  · exact .unequalDurations hp he hn hm hne

theorem refusal_of_programOf {index : Nat} (h : programOf options.programs index = .error f) :
    Refusal options piece f := by
  obtain ⟨p, hp, hrange, rfl⟩ := programOf_eq_error h
  exact .invalidProgram hp hrange

theorem refusal_of_bentParts {ps : List Part} (hps : ∀ p ∈ ps, p ∈ piece.parts) :
    ∀ {index : Nat} {free : List Channel}, bentParts options index free ps = .error f →
      Refusal options piece f := by
  induction ps with
  | nil => exact nofun
  | cons p ps ih =>
    intro index free h
    obtain ⟨hp, hps⟩ := List.forall_mem_cons.mp hps
    simp only [bentParts, ite_throw_eq_error, bind_eq_error, pure_ne_error, and_false,
      exists_false, or_false] at h
    obtain ⟨hfew, rfl⟩ | ⟨hroom, hprogram | ⟨program, -, htrack | ⟨track, -, hrest⟩⟩⟩ := h
    · exact .channelsExhausted hfew
    · exact refusal_of_programOf hprogram
    · refine refusal_of_partTrack hp (length_le_take_height hroom)
        (fun n s hs => (Stroke.bent_eq_ok hs).1) (fun n hn hs => ?_) htrack
      obtain ⟨hzero, rfl⟩ | hfault := Stroke.bent_eq_error hs
      · exact .zeroBendRange hzero
      · exact .stroke hn hfault
    · exact ih hps hrest

theorem refusal_of_mappedParts {keys : KeyMap}
    (hkeys : ∀ n ∈ (Music.piece piece).notes, n.isRest = false →
      ∃ key, keys.find? n.frequency.value = some key)
    {ps : List Part} (hps : ∀ p ∈ ps, p ∈ piece.parts) :
    ∀ {index : Nat}, mappedParts options keys index ps = .error f → Refusal options piece f := by
  induction ps with
  | nil => exact nofun
  | cons p ps ih =>
    intro index h
    obtain ⟨hp, hps⟩ := List.forall_mem_cons.mp hps
    simp only [mappedParts, bind_eq_error, pure_ne_error, and_false, exists_false, or_false] at h
    obtain hprogram | ⟨program, -, htrack | ⟨track, -, hrest⟩⟩ := h
    · exact refusal_of_programOf hprogram
    · exact refusal_of_partTrack hp (fun e _ => by rw [List.length_map])
        (fun n s hs => (Stroke.mapped_eq_ok hs).1)
        (fun n hn hs => .stroke hn (Stroke.mapped_eq_error (hkeys n hn) hs)) htrack
    · exact ih hps hrest

/-! ### Files -/

/-- A piece is refused for one of the reasons, whatever the options. -/
theorem refusal_of_ofPiece (h : File.ofPiece options piece = .error f) :
    Refusal options piece f := by
  simp only [File.ofPiece, bind_eq_error, ite_throw_eq_error, pure_ne_error, and_false, or_false]
    at h
  obtain htempo | ⟨-, -, hparts | ⟨-, -, hcount, rfl⟩⟩ := h
  · simp only [tempoTrack] at htempo
    split_ifs at htempo with hrange
    obtain rfl := Except.error.inj htempo
    exact .tempoOutOfRange hrange
  · simp only [allParts] at hparts
    cases htuning : options.tuning with
    | pitchBend =>
      simp only [htuning, bind_eq_error, pure_ne_error, and_false, exists_false, or_false] at hparts
      exact refusal_of_bentParts (fun _ hp => hp) hparts
    | scala =>
      simp only [htuning, bind_eq_error, ite_throw_eq_error, pure_ne_error, and_false,
        exists_false, or_false] at hparts
      obtain ⟨hcount, rfl⟩ | ⟨-, hkeyboard | ⟨k, hk, hmapped⟩⟩ := hparts
      · exact .tooManyParts hcount
      · simp only [Music.keyboard, Keyboard.ofFrequencies] at hkeyboard
        split_ifs at hkeyboard with hcount
        obtain rfl := Except.error.inj hkeyboard
        exact .tooManyFrequencies hcount
      · -- The keyboard was made for the notes of this very piece.
        exact refusal_of_mappedParts (fun n hn hsounds => Music.exists_find? hk hn hsounds)
          (fun _ hp => hp) hmapped
  · exact .tooManyParts (by simp only [maxTracks] at hcount ⊢; omega)

end JustIntonation.Midi
