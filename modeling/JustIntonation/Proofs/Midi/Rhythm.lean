/-
JustIntonation/Proofs/Midi/Rhythm.lean

The rhythm of a piece does not depend on how its frequencies are tuned.

Under pitch bend a note is silent where its frequency comes out at zero, and
on a retuned keyboard where it is a rest.  With a finite basic frequency a
rest comes out at zero (`Binary64.isZero_mul`), so if no other note does, both
methods strike every note for the same ticks and with the same velocity
(`Stroke.touch_eq`).  Events follow one another by the ticks of their notes,
so both play the same beats (`Plays.rhythm_eq`).

Main result: the files of a piece under the two methods have the same rhythm,
part by part (`same_rhythm`).
-/
import JustIntonation.Proofs.Binary64.Nearest
import JustIntonation.Proofs.Midi.RoundTrip
import JustIntonation.Proofs.Music.Traversal

namespace JustIntonation

/-! ### Frequencies of zero -/

namespace Binary64

variable {x y : Binary64}

theorem isZero_rounded_zero (negative : Bool) : (rounded negative 0).isZero = true := by
  simp [rounded, ofMagnitude, isZero]

/-- Zero times a finite value is zero. -/
theorem isZero_mul (hx : x.isZero = true) (hy : y.isFinite = true) : (x * y).isZero = true := by
  have hmagnitude : x.magnitude = 0 := of_decide_eq_true hx
  have hxfinite : x.isFinite = true := decide_eq_true (by rw [hmagnitude]; decide)
  rw [mul_of_isFinite hxfinite hy, absRat_of_isZero hx, zero_mul]
  exact isZero_rounded_zero _

end Binary64

theorem Number.isZero_toBinary64 {a : Number} (h : a.isZero = true) :
    a.toBinary64.isZero = true := by
  cases a with
  | exact q =>
    obtain rfl : q = 0 := of_decide_eq_true h
    exact Binary64.isZero_rounded_zero _
  | approximate x => exact h

namespace Midi

/-! ### Notes -/

section Notes

variable {f0 : Binary64} {bendRange ticksPerBeat : Nat} {n : Note} {s : Stroke}

/-- The velocity of a bent note: none if its frequency is zero. -/
theorem Stroke.velocity_bent (h : Stroke.bent f0 bendRange ticksPerBeat n = .ok s) :
    if (n.frequency.value.toBinary64 * f0).isZero then s.velocity = 0
      else velocityOf n.volume = .ok s.velocity := by
  simp only [Stroke.bent, ite_throw_eq_ok, bind_eq_ok] at h
  obtain ⟨-, ticks, -, h⟩ := h
  split_ifs at h ⊢ with hzero
  · obtain rfl := pure_eq_ok.mp h
    rfl
  · simp only [bind_eq_ok, pure_eq_ok] at h
    obtain ⟨_, -, _, -, velocity, hvelocity, rfl⟩ := h
    exact hvelocity

/-- Both methods strike a note for the same ticks and with the same velocity, if the frequency of
no note but a rest comes out at zero. -/
theorem Stroke.touch_eq {keys : Tuning.KeyMap} {s' : Stroke} (hfinite : f0.isFinite = true)
    (hsounds : n.isRest = false → (n.frequency.value.toBinary64 * f0).isZero = false)
    (h : Stroke.bent f0 bendRange ticksPerBeat n = .ok s)
    (h' : Stroke.mapped keys ticksPerBeat n = .ok s') :
    s.ticks = s'.ticks ∧ s.velocity = s'.velocity := by
  obtain ⟨hticks, -⟩ := Stroke.bent_eq_ok h
  obtain ⟨hticks', -, hmapped⟩ := Stroke.mapped_eq_ok h'
  refine ⟨Except.ok.inj (hticks.symm.trans hticks'), ?_⟩
  have hbent := Stroke.velocity_bent h
  obtain ⟨hrest, -, hsilent⟩ | ⟨hnote, -, hvelocity⟩ := hmapped
  · rw [if_pos (Binary64.isZero_mul (Number.isZero_toBinary64 hrest) hfinite)] at hbent
    rw [hbent, hsilent]
  · rw [hsounds (Bool.eq_false_iff.mpr hnote), if_neg Bool.false_ne_true, hvelocity] at hbent
    exact (Except.ok.inj hbent).symm

end Notes

/-! ### Rhythm -/

/-- What a message says of the rhythm: that a note begins, with its velocity, or that one
ends. -/
def Message.beat? : Message → Option (Bool × Nat)
  | .noteOn _ _ velocity => some (true, velocity)
  | .noteOff _ _ => some (false, 0)
  | .tempo _ | .program _ _ | .bend _ _ => none

/-- The beginnings and ends of notes with their ticks and velocities, without channels and
keys. -/
def rhythm (ms : List (Nat × Message)) : List (Nat × Bool × Nat) :=
  ms.filterMap fun m => m.2.beat?.map (m.1, ·)

theorem rhythm_append (ms ms' : List (Nat × Message)) :
    rhythm (ms ++ ms') = rhythm ms ++ rhythm ms' := List.filterMap_append

theorem rhythm_programMessages (program : Option Nat) (channels : List Channel) (tick : Nat) :
    rhythm ((programMessages program channels).map (tick, ·)) = [] := by
  rw [rhythm, List.filterMap_eq_nil_iff]
  intro m hm
  obtain ⟨_, hmessage, rfl⟩ := List.mem_map.mp hm
  obtain ⟨_, -, _, -, rfl⟩ := mem_programMessages hmessage
  rfl

/-- In a gesture all voices begin together, and all end together. -/
theorem Gesture.rhythm_timed (g : Gesture) : rhythm g.timed =
    (g.voices.map (·.stroke.velocity)).map (fun velocity => (g.start, true, velocity)) ++
      List.replicate g.voices.length (g.start + g.ticks, false, 0) := by
  have hbends : rhythm (g.bends.map (g.start, ·)) = [] := by
    rw [rhythm, List.filterMap_eq_nil_iff]
    intro m hm
    obtain ⟨_, hmessage, rfl⟩ := List.mem_map.mp hm
    obtain ⟨v, -, hbend⟩ := List.mem_filterMap.mp hmessage
    obtain ⟨amount, -, rfl⟩ := Option.map_eq_some_iff.mp hbend
    rfl
  have hons : rhythm (g.ons.map (g.start, ·))
      = (g.voices.map (·.stroke.velocity)).map (fun velocity => (g.start, true, velocity)) := by
    simp [rhythm, ons, Message.beat?, Function.comp_def, List.filterMap_map]
  have hoffs : rhythm (g.offs.map (g.start + g.ticks, ·))
      = List.replicate g.voices.length (g.start + g.ticks, false, 0) := by
    simp [rhythm, offs, Message.beat?, Function.comp_def, List.filterMap_map, List.map_const']
  rw [timed, List.map_append, rhythm_append, rhythm_append, hbends, hons, hoffs, List.nil_append]

section Plays

variable {strike strike' : Note → Except Fault Stroke} {spread spread' : Event → List Channel}

/-- Voices of the same notes have the same ticks and velocities, one by one. -/
theorem forall₂_touch {vs : List Voice} : ∀ {ws : List Voice},
    vs.map (·.note) = ws.map (·.note) → (∀ v ∈ vs, strike v.note = .ok v.stroke) →
      (∀ w ∈ ws, strike' w.note = .ok w.stroke) →
      (∀ n ∈ vs.map (·.note), ∀ s s', strike n = .ok s → strike' n = .ok s' →
        s.ticks = s'.ticks ∧ s.velocity = s'.velocity) →
      List.Forall₂ (fun v w => v.stroke.ticks = w.stroke.ticks ∧
        v.stroke.velocity = w.stroke.velocity) vs ws := by
  induction vs with
  | nil =>
    intro ws hnotes _ _ _
    rw [List.map_eq_nil_iff.mp hnotes.symm]
    exact .nil
  | cons v vs ih =>
    intro ws hnotes hvs hws htouch
    cases ws with
    | nil => cases hnotes
    | cons w ws =>
      simp only [List.map_cons, List.cons.injEq] at hnotes
      obtain ⟨hv, hvs⟩ := List.forall_mem_cons.mp hvs
      obtain ⟨hw, hws⟩ := List.forall_mem_cons.mp hws
      obtain ⟨hnote, hrest⟩ := List.forall_mem_cons.mp htouch
      rw [← hnotes.1] at hw
      exact .cons (hnote _ _ hv hw) (ih hnotes.2 hvs hws hrest)

/-- Where two ways to strike agree on ticks and velocities, they play the same rhythm. -/
theorem Plays.rhythm_eq {now : Nat} {events : List Event} {gs gs' : List Gesture}
    (h : Plays strike spread now events gs) (h' : Plays strike' spread' now events gs')
    (htouch : ∀ e ∈ events, ∀ n ∈ e.notes, ∀ s s', strike n = .ok s → strike' n = .ok s' →
      s.ticks = s'.ticks ∧ s.velocity = s'.velocity) :
    rhythm (gs.flatMap Gesture.timed) = rhythm (gs'.flatMap Gesture.timed) := by
  induction h generalizing gs' with
  | finish =>
    cases h'
    rfl
  | silent silence _ ih =>
    obtain ⟨-, hlater⟩ := List.forall_mem_cons.mp htouch
    cases h' with
    | silent _ later' => exact ih later' hlater
    | sound _ _ nonempty => exact absurd silence nonempty
  | @sound now e es gs g start notes nonempty _ struck ticks _ ih =>
    obtain ⟨hevent, hlater⟩ := List.forall_mem_cons.mp htouch
    cases h' with
    | silent silence _ => exact absurd silence nonempty
    | @sound _ _ _ gs' g' start' notes' _ _ struck' ticks' later' =>
      have hvoices := forall₂_touch (notes.trans notes'.symm) struck struck' (notes ▸ hevent)
      have hvelocities : g.voices.map (·.stroke.velocity) = g'.voices.map (·.stroke.velocity) :=
        map_eq_map_of_forall₂ (hvoices.imp fun _ _ => And.right)
      -- Both gestures are as long as the stroke of a note that they share.
      obtain ⟨w, hw⟩ := List.exists_mem_of_ne_nil _ (Gesture.voices_ne_nil notes' nonempty)
      obtain ⟨v, hv, hvw, -⟩ := exists_of_mem_of_forall₂ hvoices hw
      have hticks : g.ticks = g'.ticks := by
        rw [← ticks v hv, hvw, ticks' w hw]
      rw [List.flatMap_cons, List.flatMap_cons, rhythm_append, rhythm_append,
        Gesture.rhythm_timed, Gesture.rhythm_timed, hvelocities, hvoices.length_eq, start, start',
        hticks, ih (hticks ▸ later') hlater]

end Plays

/-! ### Files -/

/-- Two tracks of one rhythm: their notes begin and end at the same ticks, in the same order and
with the same velocities, and all else that they send is bends and one program, set at the
start. -/
structure SameRhythm (t t' : Track) : Prop where
  beats : rhythm (Track.byTick t.timed) = rhythm (Track.byTick t'.timed)
  others : ∃ program : Option Nat, ∀ u ∈ [t, t'], ∀ m ∈ u.timed, m.2.beat? = none →
    (∃ channel amount, m.2 = .bend channel amount) ∨
      ∃ channel number, program = some number ∧ m = (0, .program channel number)

theorem Line.rhythm_timed (l : Line) :
    rhythm l.timed = rhythm (l.gestures.flatMap Gesture.timed) := by
  rw [Line.timed, rhythm_append, rhythm_programMessages, List.nil_append]

/-- All that a line sends but notes is bends and its program. -/
theorem Line.bend_or_program {l : Line} {m : Nat × Message} (hm : m ∈ l.timed)
    (hbeat : m.2.beat? = none) : (∃ channel amount, m.2 = .bend channel amount) ∨
      ∃ channel number, l.program = some number ∧ m = (0, .program channel number) := by
  rcases List.mem_append.mp hm with hm | hm
  · obtain ⟨_, hmessage, rfl⟩ := List.mem_map.mp hm
    obtain ⟨number, hprogram, channel, -, rfl⟩ := mem_programMessages hmessage
    exact .inr ⟨channel, number, hprogram, rfl⟩
  · obtain ⟨g, -, hm⟩ := List.mem_flatMap.mp hm
    obtain ⟨v, -, ⟨amount, -, rfl⟩ | rfl | rfl⟩ := Gesture.mem_timed hm
    · exact .inl ⟨v.channel, amount, rfl⟩
    · cases hbeat
    · cases hbeat

variable {options : Options} {piece : Piece} {f f' : File}

theorem length_tracks (h : File.ofPiece options piece = .ok f) :
    f.tracks.length = piece.parts.length + 1 := by
  obtain ⟨-, -, -, hparts⟩ := ofPiece_eq_ok h
  obtain ⟨lines, hrenders, hlines⟩ := exists_lines hparts
  have hlength := congrArg List.length hrenders
  rw [List.length_map, List.length_map, hlines.length_eq] at hlength
  rw [File.tracks, List.length_cons, List.length_map, hlength]

theorem keyboard_pitchBend (htuning : options.tuning = .pitchBend)
    (h : File.ofPiece options piece = .ok f) : f.keyboard = none := by
  obtain ⟨-, -, -, hparts⟩ := ofPiece_eq_ok h
  obtain ⟨-, hkeyboard, -⟩ | ⟨_, hscala, -⟩ := allParts_eq_ok hparts
  · exact hkeyboard
  · rw [htuning] at hscala
    cases hscala

/-- The two tuning methods play the same rhythm, if the basic frequency is finite and no note but
a rest comes out at a frequency of zero: the files have the same header and the same tempo, and
of every part their tracks have the same rhythm. -/
theorem same_rhythm (hfinite : options.f0.isFinite = true)
    (hsounds : ∀ n ∈ (Music.piece piece).notes, n.isRest = false →
      (n.frequency.value.toBinary64 * options.f0).isZero = false)
    (h : File.ofPiece { options with tuning := .pitchBend } piece = .ok f)
    (h' : File.ofPiece { options with tuning := .scala } piece = .ok f') :
    f.tracks.length = f'.tracks.length ∧ f.tempo = f'.tempo ∧ f.header = f'.header ∧
    ∀ index, index < piece.parts.length → ∃ t t',
      f.tracks[index + 1]? = some t ∧ f'.tracks[index + 1]? = some t' ∧ SameRhythm t t' := by
  have hlength : f.tracks.length = f'.tracks.length := by
    rw [length_tracks h, length_tracks h']
  obtain ⟨hbeat, htempo, -, hparts⟩ := ofPiece_eq_ok h
  obtain ⟨hbeat', htempo', -, hparts'⟩ := ofPiece_eq_ok h'
  refine ⟨hlength, Except.ok.inj (htempo.symm.trans htempo'), ?_, ?_⟩
  · rw [File.header, File.header, hlength, hbeat, hbeat']
  · intro index hindex
    have hp : piece.parts[index]? = some piece.parts[index] := List.getElem?_eq_getElem hindex
    obtain ⟨l, t, -, ht, htimed, hprogram, hplays⟩ := exists_line_of_allParts hparts hp
    obtain ⟨l', t', -, ht', htimed', hprogram', hplays'⟩ := exists_line_of_allParts hparts' hp
    obtain ⟨k, hk, -⟩ := mappedParts_of_ofPiece rfl h'
    rw [keyboard_pitchBend rfl h] at hplays
    rw [hk] at hplays'
    have hsame : l.program = l'.program := Except.ok.inj (hprogram.symm.trans hprogram')
    refine ⟨t, t', ht, ht', ?_, l.program, ?_⟩
    · rw [(readable_of_ofPiece h t (List.mem_of_getElem? ht)).spaced.byTick_eq,
        (readable_of_ofPiece h' t' (List.mem_of_getElem? ht')).spaced.byTick_eq, htimed, htimed',
        Line.rhythm_timed, Line.rhythm_timed]
      apply hplays.rhythm_eq hplays'
      intro e he n hn s s' hs hs'
      exact Stroke.touch_eq hfinite (hsounds n (Piece.mem_notes (List.mem_of_getElem? hp) he hn))
        hs hs'
    · intro u hu m hm hbeat
      obtain rfl | hu := List.mem_cons.mp hu
      · exact Line.bend_or_program (htimed ▸ hm) hbeat
      · rw [List.mem_singleton.mp hu, htimed'] at hm
        rw [hsame]
        exact Line.bend_or_program hm hbeat

theorem same_rhythm_octave :
    bentFromMiddleC.f0.isFinite = true ∧
    (∀ n ∈ (Music.piece octaveAndRest).notes, n.isRest = false →
      (n.frequency.value.toBinary64 * bentFromMiddleC.f0).isZero = false) ∧
    ∃ f f', File.ofPiece { bentFromMiddleC with tuning := .pitchBend } octaveAndRest = .ok f ∧
      File.ofPiece { bentFromMiddleC with tuning := .scala } octaveAndRest = .ok f' ∧
      f.header = f'.header ∧
      ∀ index, index < octaveAndRest.parts.length → ∃ t t',
        f.tracks[index + 1]? = some t ∧ f'.tracks[index + 1]? = some t' ∧ SameRhythm t t' := by
  have hfinite : bentFromMiddleC.f0.isFinite = true := by decide +kernel
  have hsounds : ∀ n ∈ (Music.piece octaveAndRest).notes, n.isRest = false →
      (n.frequency.value.toBinary64 * bentFromMiddleC.f0).isZero = false := by decide +kernel
  obtain ⟨f, hf⟩ := exists_eq_ok
    (x := File.ofPiece { bentFromMiddleC with tuning := .pitchBend } octaveAndRest)
    (by decide +kernel)
  obtain ⟨f', hf'⟩ := exists_eq_ok
    (x := File.ofPiece { bentFromMiddleC with tuning := .scala } octaveAndRest)
    (by decide +kernel)
  obtain ⟨-, -, hheader, hrhythm⟩ := same_rhythm hfinite hsounds hf hf'
  exact ⟨hfinite, hsounds, f, f', hf, hf', hheader, hrhythm⟩

end Midi

end JustIntonation
