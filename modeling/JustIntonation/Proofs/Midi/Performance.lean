/-
JustIntonation/Proofs/Midi/Performance.lean

What a file plays, without its encoding.

A *voice* is a note as it is struck on a channel, and a *gesture* is what
becomes of one event: its voices, sounding together from a tick on.  An event
without notes leaves no trace.  `Plays strike spread now events gestures` says
that the gestures are those of the events, one behind the other from tick
`now` on; it speaks of the music and of single notes only, and determines the
gestures.

Main results: the track of a part is its program changes followed by the
gestures of its events (`exists_plays_of_partTrack`), and so every part of a
file plays a *line* on the channels that the file names for it
(`bentParts_eq_ok`, `mappedParts_eq_ok`, `exists_lines`).
-/
import JustIntonation.Midi.File
import JustIntonation.Proofs.Except

namespace JustIntonation.Midi

/-- A note as it is struck on a channel. -/
structure Voice where
  note : Note
  stroke : Stroke
  channel : Channel

/-- The voices of an event, sounding together. -/
structure Gesture where
  start : Nat
  ticks : Nat
  voices : List Voice

namespace Gesture

def bends (g : Gesture) : List Message :=
  g.voices.filterMap fun v => v.stroke.bend.map fun amount => .bend v.channel amount

def ons (g : Gesture) : List Message :=
  g.voices.map fun v => .noteOn v.channel v.stroke.key v.stroke.velocity

def offs (g : Gesture) : List Message := g.voices.map fun v => .noteOff v.channel v.stroke.key

/-- The messages of a gesture at their ticks: bends and note-ons at its start, note-offs at
its end. -/
def timed (g : Gesture) : List (Nat × Message) :=
  (g.bends ++ g.ons).map (g.start, ·) ++ g.offs.map (g.start + g.ticks, ·)

/-- A message of a gesture is the bend, the note-on or the note-off of one of its voices. -/
theorem mem_timed {g : Gesture} {m : Nat × Message} (h : m ∈ g.timed) : ∃ v ∈ g.voices,
    (∃ amount, v.stroke.bend = some amount ∧ m = (g.start, .bend v.channel amount)) ∨
    m = (g.start, .noteOn v.channel v.stroke.key v.stroke.velocity) ∨
    m = (g.start + g.ticks, .noteOff v.channel v.stroke.key) := by
  simp only [timed, bends, ons, offs, List.mem_append, List.mem_map, List.mem_filterMap,
    Option.map_eq_some_iff] at h
  obtain ⟨_, ⟨v, hv, amount, hamount, rfl⟩ | ⟨v, hv, rfl⟩, rfl⟩ | ⟨_, ⟨v, hv, rfl⟩, rfl⟩ := h
  · exact ⟨v, hv, .inl ⟨amount, hamount, rfl⟩⟩
  · exact ⟨v, hv, .inr (.inl rfl)⟩
  · exact ⟨v, hv, .inr (.inr rfl)⟩

theorem voices_ne_nil {g : Gesture} {notes : List Note} (h : g.voices.map (·.note) = notes)
    (hne : notes ≠ []) : g.voices ≠ [] := by
  intro hnil
  rw [hnil] at h
  exact hne h.symm

end Gesture

/-- The gestures of a sequence of events, from tick `now` on.  A note is struck as `strike`
says, on the channel that stands at its place in `spread` of the event. -/
inductive Plays (strike : Note → Except Fault Stroke) (spread : Event → List Channel) :
    Nat → List Event → List Gesture → Prop
  | finish {now} : Plays strike spread now [] []
  | silent {now e es gs} (silence : e.notes = []) (later : Plays strike spread now es gs) :
      Plays strike spread now (e :: es) gs
  | sound {now e es gs} {g : Gesture} (start : g.start = now) (notes : g.voices.map (·.note) = e.notes)
      (nonempty : e.notes ≠ [])
      (channels : g.voices.map (·.channel) = (spread e).take e.notes.length)
      (struck : ∀ v ∈ g.voices, strike v.note = .ok v.stroke)
      (ticks : ∀ v ∈ g.voices, v.stroke.ticks = g.ticks)
      (later : Plays strike spread (now + g.ticks) es gs) :
      Plays strike spread now (e :: es) (g :: gs)

theorem Plays.struck {strike : Note → Except Fault Stroke} {spread : Event → List Channel}
    {now : Nat} {events : List Event} {gestures : List Gesture}
    (h : Plays strike spread now events gestures) :
    ∀ g ∈ gestures, ∀ v ∈ g.voices, strike v.note = .ok v.stroke := by
  induction h with
  | finish => simp
  | silent _ _ ih => exact ih
  | sound _ _ _ _ struck _ _ ih =>
    intro g' hg'
    obtain rfl | hg' := List.mem_cons.mp hg'
    · exact struck
    · exact ih g' hg'

/-- The voices of an event are on the channels that are spread for it. -/
theorem Plays.exists_mem_spread {strike : Note → Except Fault Stroke}
    {spread : Event → List Channel} {now : Nat} {events : List Event} {gestures : List Gesture}
    (h : Plays strike spread now events gestures) :
    ∀ g ∈ gestures, ∀ v ∈ g.voices, ∃ e ∈ events, v.channel ∈ spread e := by
  induction h with
  | finish => simp
  | silent _ _ ih =>
    intro g hg v hv
    obtain ⟨e, he, hmem⟩ := ih g hg v hv
    exact ⟨e, List.mem_cons_of_mem _ he, hmem⟩
  | sound _ _ _ channels _ _ _ ih =>
    intro g hg v hv
    obtain rfl | hg := List.mem_cons.mp hg
    · have hmem := List.mem_map_of_mem (f := (·.channel)) hv
      rw [channels] at hmem
      exact ⟨_, List.mem_cons_self, List.mem_of_mem_take hmem⟩
    · obtain ⟨e, he, hmem⟩ := ih g hg v hv
      exact ⟨e, List.mem_cons_of_mem _ he, hmem⟩

theorem voices_unique {strike : Note → Except Fault Stroke} {vs : List Voice} :
    ∀ {ws : List Voice}, vs.map (·.note) = ws.map (·.note) →
      vs.map (·.channel) = ws.map (·.channel) → (∀ v ∈ vs, strike v.note = .ok v.stroke) →
      (∀ w ∈ ws, strike w.note = .ok w.stroke) → vs = ws := by
  induction vs with
  | nil =>
    intro ws hnotes _ _ _
    exact (List.map_eq_nil_iff.mp hnotes.symm).symm
  | cons v vs ih =>
    intro ws hnotes hchannels hvs hws
    cases ws with
    | nil => cases hnotes
    | cons w ws =>
      simp only [List.map_cons, List.cons.injEq] at hnotes hchannels
      obtain ⟨hv, hvs⟩ := List.forall_mem_cons.mp hvs
      obtain ⟨hw, hws⟩ := List.forall_mem_cons.mp hws
      -- Striking is a function, so equal notes have equal strokes.
      have hstroke : v.stroke = w.stroke := by
        rw [hnotes.1, hw] at hv
        exact (Except.ok.inj hv).symm
      have hvoice : v = w := by
        cases v
        cases w
        simp only at hnotes hchannels hstroke
        rw [hnotes.1, hchannels.1, hstroke]
      rw [hvoice, ih hnotes.2 hchannels.2 hvs hws]

/-- The music determines its gestures. -/
theorem Plays.unique {strike : Note → Except Fault Stroke} {spread : Event → List Channel}
    {now : Nat} {events : List Event} {gs gs' : List Gesture}
    (h : Plays strike spread now events gs) (h' : Plays strike spread now events gs') :
    gs = gs' := by
  induction h generalizing gs' with
  | finish =>
    cases h'
    rfl
  | silent silence _ ih =>
    cases h' with
    | silent _ later => exact ih later
    | sound _ _ nonempty => exact absurd silence nonempty
  | @sound now e es gs g start notes nonempty channels struck ticks _ ih =>
    cases h' with
    | silent silence _ => exact absurd silence nonempty
    | @sound _ _ _ gs' g' start' notes' _ channels' struck' ticks' later' =>
      have hvoices : g.voices = g'.voices :=
        voices_unique (notes.trans notes'.symm) (channels.trans channels'.symm) struck struck'
      -- Both gestures are as long as the stroke of a voice that they share.
      obtain ⟨v, hv⟩ := List.exists_mem_of_ne_nil _ (Gesture.voices_ne_nil notes nonempty)
      have hticks : g.ticks = g'.ticks := by
        rw [← ticks v hv, ticks' v (hvoices ▸ hv)]
      have hgesture : g = g' := by
        cases g
        cases g'
        simp only at start start' hvoices hticks
        rw [start, start', hvoices, hticks]
      rw [hgesture, ih (hticks ▸ later')]

/-! ### The steps of one event -/

theorem timedFrom_map_send (now : Nat) (ms : List Message) (t : Track) :
    Track.timedFrom now (ms.map Step.send ++ t) = ms.map (now, ·) ++ Track.timedFrom now t := by
  induction ms with
  | nil => rfl
  | cons m ms ih => simp [Track.timedFrom, ih]

/-- The steps of a chord put the messages of the gesture at their ticks. -/
theorem timedFrom_chordSteps (g : Gesture) (t : Track) :
    Track.timedFrom g.start (chordSteps g.ticks (g.voices.map fun v => (v.stroke, v.channel)) ++ t)
      = g.timed ++ Track.timedFrom (g.start + g.ticks) t := by
  have hbends : (g.voices.filterMap fun v => v.stroke.bend.map fun amount =>
      Step.send (.bend v.channel amount)) = g.bends.map Step.send := by
    simp [Gesture.bends, List.map_filterMap, Function.comp_def]
  have hons : (g.voices.map fun v => Step.send (.noteOn v.channel v.stroke.key v.stroke.velocity))
      = g.ons.map Step.send := by
    simp [Gesture.ons]
  have hoffs : (g.voices.map fun v => Step.send (.noteOff v.channel v.stroke.key))
      = g.offs.map Step.send := by
    simp [Gesture.offs]
  simp only [chordSteps, List.filterMap_map, List.map_map, Function.comp_def, hbends, hons, hoffs]
  simp only [List.append_assoc, List.cons_append, timedFrom_map_send, Track.timedFrom,
    Gesture.timed, List.map_append]

theorem sharedTicks_eq_ok {strokes : List Stroke} {ticks : Nat} (h : sharedTicks strokes = .ok ticks) :
    ∀ s ∈ strokes, s.ticks = ticks := by
  cases strokes with
  | nil => simp
  | cons s rest =>
    by_cases hall : rest.all (·.ticks = s.ticks)
    · simp only [sharedTicks, hall, if_true, Except.ok.injEq] at h
      simpa [← h] using hall
    · simp [sharedTicks, hall] at h

/-- Notes that could be struck, put on channels in their order. -/
theorem exists_voices {strike : Note → Except Fault Stroke} {notes : List Note}
    {strokes : List Stroke} (h : List.Forall₂ (fun n s => strike n = .ok s) notes strokes) :
    ∀ channels : List Channel, notes.length ≤ channels.length →
      ∃ voices : List Voice, voices.map (·.note) = notes ∧
        voices.map (·.channel) = channels.take notes.length ∧
        strokes.zip channels = voices.map (fun v => (v.stroke, v.channel)) ∧
        ∀ v ∈ voices, strike v.note = .ok v.stroke := by
  induction h with
  | nil => exact fun channels _ => ⟨[], by simp⟩
  | @cons n s notes strokes hs _ ih =>
    intro channels hlength
    cases channels with
    | nil => simp at hlength
    | cons c channels =>
      obtain ⟨voices, hnotes, hchannels, hzip, hstruck⟩ := ih channels (by simpa using hlength)
      refine ⟨⟨n, s, c⟩ :: voices, by simp [hnotes], by simp [hchannels], by simp [hzip], ?_⟩
      intro v hv
      obtain rfl | hv := List.mem_cons.mp hv
      · exact hs
      · exact hstruck v hv

/-- What is written of an event: nothing of one without notes, and else the steps of a
gesture. -/
theorem eventSteps_eq_ok {strike : Note → Except Fault Stroke} {channels : List Channel}
    {e : Event} {t : Track} (h : eventSteps strike channels e = .ok t) (now : Nat) :
    (e.notes = [] ∧ t = []) ∨
    ∃ g : Gesture, g.start = now ∧ e.notes ≠ [] ∧ g.voices.map (·.note) = e.notes ∧
      g.voices.map (·.channel) = channels.take e.notes.length ∧
      (∀ v ∈ g.voices, strike v.note = .ok v.stroke) ∧
      (∀ v ∈ g.voices, v.stroke.ticks = g.ticks) ∧
      t = chordSteps g.ticks (g.voices.map fun v => (v.stroke, v.channel)) := by
  by_cases hnotes : e.notes = []
  · left
    simp only [eventSteps, hnotes, List.isEmpty_nil, if_true, pure_eq_ok] at h
    exact ⟨hnotes, h.symm⟩
  · right
    have hempty : e.notes.isEmpty = false := by simpa using hnotes
    simp only [eventSteps, hempty, Bool.false_eq_true, if_false, ite_throw_eq_ok, bind_eq_ok,
      mapM_eq_ok, pure_eq_ok] at h
    obtain ⟨hroom, strokes, hstrokes, ticks, hticks, rfl⟩ := h
    -- There are channels enough, so every stroke becomes a voice.
    obtain ⟨voices, hvoices, hchannels, hzip, hstruck⟩ :=
      exists_voices hstrokes channels (Nat.le_of_not_lt hroom)
    refine ⟨⟨now, ticks, voices⟩, rfl, hnotes, hvoices, hchannels, hstruck, ?_, by rw [hzip]⟩
    intro v hv
    have hmem : (v.stroke, v.channel) ∈ strokes.zip channels := by
      rw [hzip]
      exact List.mem_map_of_mem hv
    exact sharedTicks_eq_ok hticks v.stroke (List.of_mem_zip hmem).1

/-! ### The track of a part -/

/-- The messages that set a program on channels. -/
def programMessages (program : Option Nat) (channels : List Channel) : List Message :=
  match program with
  | some number => channels.map fun channel => .program channel number
  | none => []

theorem mem_programMessages {program : Option Nat} {channels : List Channel} {m : Message}
    (h : m ∈ programMessages program channels) :
    ∃ number, program = some number ∧ ∃ channel ∈ channels, m = .program channel number := by
  cases program with
  | none => cases h
  | some number =>
    obtain ⟨channel, hchannel, rfl⟩ := List.mem_map.mp h
    exact ⟨number, rfl, channel, hchannel, rfl⟩

/-- The events of a part, written one behind the other, are gestures one behind the other. -/
theorem exists_plays_of_eventSteps {strike : Note → Except Fault Stroke}
    {spread : Event → List Channel} {events : List Event} {tracks : List Track}
    (h : List.Forall₂ (fun e t => eventSteps strike (spread e) e = .ok t) events tracks) :
    ∀ now, ∃ gestures, Plays strike spread now events gestures ∧
      Track.timedFrom now tracks.flatten = gestures.flatMap Gesture.timed := by
  induction h with
  | nil => exact fun now => ⟨[], .finish, rfl⟩
  | @cons e t events tracks he _ ih =>
    intro now
    -- The first event takes no time if it is silent, and else that of its gesture.
    obtain ⟨hnotes, rfl⟩ | ⟨g, rfl, hnonempty, hnotes, hchannels, hstruck, hticks, rfl⟩ :=
      eventSteps_eq_ok he now
    · obtain ⟨gestures, hplays, htimed⟩ := ih now
      exact ⟨gestures, .silent hnotes hplays, by simpa using htimed⟩
    · obtain ⟨gestures, hplays, htimed⟩ := ih (g.start + g.ticks)
      refine ⟨g :: gestures,
        .sound rfl hnotes hnonempty hchannels hstruck hticks hplays, ?_⟩
      rw [List.flatten_cons, timedFrom_chordSteps, htimed, List.flatMap_cons]

/-- The track of a part is its program changes and then the gestures of its events. -/
theorem exists_plays_of_partTrack {strike : Note → Except Fault Stroke}
    {spread : Event → List Channel} {channels : List Channel} {program : Option Nat} {p : Part}
    {t : Track} (h : partTrack strike spread channels program p = .ok t) :
    ∃ gestures, Plays strike spread 0 p.events gestures ∧
      t.timed = (programMessages program channels).map (0, ·) ++ gestures.flatMap Gesture.timed := by
  simp only [partTrack, bind_eq_ok, mapM_eq_ok, pure_eq_ok] at h
  obtain ⟨tracks, htracks, rfl⟩ := h
  obtain ⟨gestures, hplays, htimed⟩ := exists_plays_of_eventSteps htracks 0
  refine ⟨gestures, hplays, ?_⟩
  cases program with
  | none => simpa [programMessages, Track.timed] using htimed
  | some number =>
    have hsend : channels.map (fun channel => Step.send (.program channel number))
        = (programMessages (some number) channels).map Step.send := by
      simp [programMessages]
    simp only [hsend, Track.timed, timedFrom_map_send, htimed]

/-! ### The parts of a file -/

/-- What a part plays: its program on its channels, and then gestures. -/
structure Line where
  channels : List Channel
  program : Option Nat
  gestures : List Gesture

/-- The messages of a part at their ticks. -/
def Line.timed (l : Line) : List (Nat × Message) :=
  (programMessages l.program l.channels).map (0, ·) ++ l.gestures.flatMap Gesture.timed

/-- The lines of the parts from `index` on.  `spread` gives the channels for the notes of an
event from those of the part. -/
inductive Lines (strike : Note → Except Fault Stroke) (spread : List Channel → Event → List Channel)
    (programs : List (Option Nat)) : Nat → List Part → List Line → Prop
  | nil {index} : Lines strike spread programs index [] []
  | cons {index p ps l ls} (program : programOf programs index = .ok l.program)
      (plays : Plays strike (spread l.channels) 0 p.events l.gestures)
      (rest : Lines strike spread programs (index + 1) ps ls) :
      Lines strike spread programs index (p :: ps) (l :: ls)

theorem Lines.length_eq {strike : Note → Except Fault Stroke}
    {spread : List Channel → Event → List Channel} {programs : List (Option Nat)} {index : Nat}
    {ps : List Part} {ls : List Line} (h : Lines strike spread programs index ps ls) :
    ls.length = ps.length := by
  induction h with
  | nil => rfl
  | cons _ _ _ ih => simp [ih]

/-- Every line is that of the part at its place. -/
theorem Lines.exists_part {strike : Note → Except Fault Stroke}
    {spread : List Channel → Event → List Channel} {programs : List (Option Nat)} {index : Nat}
    {ps : List Part} {ls : List Line} (h : Lines strike spread programs index ps ls) :
    ∀ {i : Nat} {l : Line}, ls[i]? = some l → ∃ p, ps[i]? = some p ∧
      programOf programs (index + i) = .ok l.program ∧
      Plays strike (spread l.channels) 0 p.events l.gestures := by
  induction h with
  | nil => simp
  | @cons index p ps l ls program plays _ ih =>
    intro i m hi
    cases i with
    | zero =>
      rw [List.getElem?_cons_zero, Option.some.injEq] at hi
      subst hi
      exact ⟨p, rfl, program, plays⟩
    | succ i =>
      rw [List.getElem?_cons_succ] at hi
      obtain ⟨q, hq, hprogram, hplays⟩ := ih hi
      rw [Nat.add_assoc, Nat.add_comm 1] at hprogram
      exact ⟨q, by rwa [List.getElem?_cons_succ], hprogram, hplays⟩

/-- Every part has a line. -/
theorem Lines.exists_line {strike : Note → Except Fault Stroke}
    {spread : List Channel → Event → List Channel} {programs : List (Option Nat)} {index : Nat}
    {ps : List Part} {ls : List Line} (h : Lines strike spread programs index ps ls) {i : Nat}
    {p : Part} (hp : ps[i]? = some p) : ∃ l, ls[i]? = some l ∧
      programOf programs (index + i) = .ok l.program ∧
      Plays strike (spread l.channels) 0 p.events l.gestures := by
  have hi : i < ls.length := by
    rw [h.length_eq]
    exact (List.getElem?_eq_some_iff.mp hp).1
  have hl : ls[i]? = some ls[i] := List.getElem?_eq_getElem hi
  obtain ⟨q, hq, hprogram, hplays⟩ := h.exists_part hl
  obtain rfl := Option.some.inj (hp.symm.trans hq)
  exact ⟨ls[i], hl, hprogram, hplays⟩

/-- Channels and timed messages of the parts of a file are those of some lines. -/
def Renders (parts : List (List Channel × Track)) (lines : List Line) : Prop :=
  parts.map (fun part => (part.1, Track.timed part.2)) = lines.map fun l => (l.channels, l.timed)

/-- Under pitch bend the parts take their channels one behind the other, each as many as it is
high. -/
theorem bentParts_eq_ok {options : Options} {ps : List Part} :
    ∀ {index : Nat} {free : List Channel} {parts : List (List Channel × Track)},
      bentParts options index free ps = .ok parts → ∃ lines,
        Renders parts lines ∧
        Lines (Stroke.bent options.f0 options.bendRange options.ticksPerBeat)
          (fun channels _ => channels) options.programs index ps lines ∧
        lines.map (·.channels.length) = ps.map Part.height ∧
        (lines.map (·.channels)).flatten <+: free := by
  induction ps with
  | nil =>
    intro index free parts h
    simp only [bentParts, Except.ok.injEq] at h
    exact ⟨[], by simp [Renders, ← h], .nil, rfl, by simp⟩
  | cons p ps ih =>
    intro index free parts h
    simp only [bentParts, ite_throw_eq_ok, bind_eq_ok, pure_eq_ok] at h
    obtain ⟨hroom, program, hprogram, t, ht, rest, hrest, rfl⟩ := h
    obtain ⟨gestures, hplays, htimed⟩ := exists_plays_of_partTrack ht
    obtain ⟨lines, hrenders, hlines, hheights, hprefix⟩ := ih hrest
    refine ⟨⟨free.take p.height, program, gestures⟩ :: lines, ?_, .cons hprogram hplays hlines,
      ?_, ?_⟩
    · simp only [Renders] at hrenders
      simp [Renders, Line.timed, htimed, hrenders]
    · simp [hheights, Nat.min_eq_left (Nat.le_of_not_lt hroom)]
    · -- The later parts take theirs from what the first has left.
      obtain ⟨tail, htail⟩ := hprefix
      refine ⟨tail, ?_⟩
      simp only [List.map_cons, List.flatten_cons, List.append_assoc, htail, List.take_append_drop]

/-- On a retuned keyboard each part has the channel of its number. -/
theorem mappedParts_eq_ok {options : Options} {keys : Tuning.KeyMap} {ps : List Part} :
    ∀ {index : Nat} {parts : List (List Channel × Track)},
      mappedParts options keys index ps = .ok parts → ∃ lines,
        Renders parts lines ∧
        Lines (Stroke.mapped keys options.ticksPerBeat)
          (fun channels e => channels.flatMap (List.replicate e.notes.length)) options.programs
          index ps lines ∧
        lines.map (·.channels) = (List.range' index ps.length).map fun i => [Channel.ofNat i] := by
  induction ps with
  | nil =>
    intro index parts h
    simp only [mappedParts, Except.ok.injEq] at h
    exact ⟨[], by simp [Renders, ← h], .nil, rfl⟩
  | cons p ps ih =>
    intro index parts h
    simp only [mappedParts, bind_eq_ok, pure_eq_ok] at h
    obtain ⟨program, hprogram, t, ht, rest, hrest, rfl⟩ := h
    obtain ⟨gestures, hplays, htimed⟩ := exists_plays_of_partTrack ht
    obtain ⟨lines, hrenders, hlines, hchannels⟩ := ih hrest
    refine ⟨⟨[Channel.ofNat index], program, gestures⟩ :: lines, ?_, .cons hprogram ?_ hlines, ?_⟩
    · simp only [Renders] at hrenders
      simp [Renders, Line.timed, htimed, hrenders]
    · simpa using hplays
    · simp [hchannels, List.range'_succ]

/-! ### Files -/

/-- How the notes of a file are struck: bent, or by the keyboard where that is retuned. -/
def Options.strike (options : Options) : Option Tuning.Keyboard → Note → Except Fault Stroke
  | none => Stroke.bent options.f0 options.bendRange options.ticksPerBeat
  | some keyboard => Stroke.mapped keyboard.keys options.ticksPerBeat

/-- The channels for the notes of an event on those of its part: bent notes have one each, the
notes of a retuned keyboard share the one that there is. -/
def spread : Option Tuning.Keyboard → List Channel → Event → List Channel
  | none, channels, _ => channels
  | some _, channels, e => channels.flatMap (List.replicate e.notes.length)

theorem tempoTrack_eq_ok {t0 : Binary64} {t : Track} (h : tempoTrack t0 = .ok t) :
    ∃ microseconds : Nat, microseconds ≤ 0xFFFFFF ∧
      (t0 / .ofDecimal false 1 (-6)).roundEven.toInt64 = microseconds ∧
      t = [.send (.tempo microseconds)] := by
  simp only [tempoTrack] at h
  split at h
  · rename_i hrange
    obtain ⟨hlow, hhigh⟩ := hrange
    refine ⟨_, ?_, (Int.toNat_of_nonneg hlow).symm, (Except.ok.inj h).symm⟩
    omega
  · cases h

/-- The two ways to lay out the parts of a file. -/
theorem allParts_eq_ok {options : Options} {ps : List Part}
    {parts : List (List Channel × Track)} {keyboard : Option Tuning.Keyboard}
    (h : allParts options ps = .ok (parts, keyboard)) :
    (options.tuning = .pitchBend ∧ keyboard = none ∧
      bentParts options 0 bendChannels ps = .ok parts) ∨
    (∃ k, options.tuning = .scala ∧ keyboard = some k ∧ ps.length ≤ 16 ∧
      Music.keyboard options.f0 (.piece ⟨ps⟩) = .ok k ∧
      mappedParts options k.keys 0 ps = .ok parts) := by
  cases htuning : options.tuning with
  | pitchBend =>
    simp only [allParts, htuning, bind_eq_ok, pure_eq_ok, Prod.mk.injEq] at h
    obtain ⟨_, hparts, rfl, rfl⟩ := h
    exact .inl ⟨rfl, rfl, hparts⟩
  | scala =>
    simp only [allParts, htuning, ite_throw_eq_ok, bind_eq_ok, pure_eq_ok, Prod.mk.injEq] at h
    obtain ⟨hcount, k, hk, _, hparts, rfl, rfl⟩ := h
    exact .inr ⟨k, rfl, rfl, Nat.le_of_not_lt hcount, hk, hparts⟩

/-- A file that could be made: its tempo and its parts, in numbers that it can hold. -/
theorem ofPiece_eq_ok {options : Options} {piece : Piece} {f : File}
    (h : File.ofPiece options piece = .ok f) :
    f.ticksPerBeat = options.ticksPerBeat ∧
    tempoTrack options.t0 = .ok f.tempo ∧
    piece.parts.length < maxTracks ∧
    allParts options piece.parts = .ok (f.parts, f.keyboard) := by
  simp only [File.ofPiece, bind_eq_ok, ite_throw_eq_ok, pure_eq_ok] at h
  obtain ⟨tempo, htempo, ⟨parts, keyboard⟩, hparts, hcount, rfl⟩ := h
  exact ⟨rfl, htempo, by omega, hparts⟩

/-- A file for a retuned keyboard: the keyboard is that of the piece, and has laid out its parts. -/
theorem mappedParts_of_ofPiece {options : Options} (htuning : options.tuning = .scala)
    {piece : Piece} {f : File} (h : File.ofPiece options piece = .ok f) :
    ∃ k, f.keyboard = some k ∧ Music.keyboard options.f0 (.piece piece) = .ok k ∧
      mappedParts options k.keys 0 piece.parts = .ok f.parts := by
  obtain ⟨-, -, -, hparts⟩ := ofPiece_eq_ok h
  obtain ⟨hbent, -⟩ | ⟨k, -, hkeyboard, -, hk, hmapped⟩ := allParts_eq_ok hparts
  · rw [htuning] at hbent
    cases hbent
  · exact ⟨k, hkeyboard, hk, hmapped⟩

/-- Every part of a file plays a line. -/
theorem exists_lines {options : Options} {ps : List Part} {parts : List (List Channel × Track)}
    {keyboard : Option Tuning.Keyboard} (h : allParts options ps = .ok (parts, keyboard)) :
    ∃ lines, Renders parts lines ∧
      Lines (options.strike keyboard) (spread keyboard) options.programs 0 ps lines := by
  obtain ⟨-, rfl, hbent⟩ | ⟨k, -, rfl, -, -, hmapped⟩ := allParts_eq_ok h
  · obtain ⟨lines, hrenders, hlines, -⟩ := bentParts_eq_ok hbent
    exact ⟨lines, hrenders, hlines⟩
  · obtain ⟨lines, hrenders, hlines, -⟩ := mappedParts_eq_ok hmapped
    exact ⟨lines, hrenders, hlines⟩

/-! ### A small piece -/

/-- Pitch bend with middle C as the basic frequency, so that octaves need no bend. -/
def bentFromMiddleC : Options where
  f0 := middleC
  tuning := .pitchBend
  programs := [some 5, none]

/-- An octave and a rest, above a low note that is repeated, and beside a part without notes. -/
def octaveAndRest : Piece :=
  let ratio (n d : Nat) (h : (d : Int) ≠ 0) : Quantity := .product ⟨[.ofTerms n d h]⟩
  let note (n d : Nat) (h : (d : Int) ≠ 0) : Note := ⟨ratio n d h, ratio 1 2 (by decide), .one⟩
  ⟨[⟨[.chord [note 1 1 (by decide), note 2 1 (by decide)], .note (note 0 1 (by decide))]⟩,
    ⟨[.note (note 1 2 (by decide)), .chord [], .note (note 1 2 (by decide))]⟩,
    ⟨[]⟩]⟩

end JustIntonation.Midi
