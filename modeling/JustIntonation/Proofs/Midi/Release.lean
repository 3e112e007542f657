/-
JustIntonation/Proofs/Midi/Release.lean

When the notes of a retuned keyboard are released.

All notes of a part share one channel, and a rest holds key 0 without
velocity, which a synthesizer takes for the release of that key.  But key 0 is
also the key of the lowest frequency.  So in a chord a rest behind the lowest
note ends that note where it has just begun.

Main result: that is the only way in which a sounding note can be cut short
(`released_early_iff`).  A note that is as loud as another has its note-on
with a velocity, so notes of the same key do not release each other; and what
comes behind an event waits until the event is over (`later_not_early`).
-/
import JustIntonation.Proofs.Midi.RoundTrip
import JustIntonation.Proofs.Notation.Descent

namespace JustIntonation.Midi

/-! ### Releases -/

/-- A message releases a key on a channel: as its note-off, or as a note-on without velocity,
which stands for one. -/
def Message.Releases (c : Channel) (key : Nat) : Message → Prop
  | .noteOff channel k => channel = c ∧ k = key
  | .noteOn channel k velocity => channel = c ∧ k = key ∧ velocity = 0
  | _ => False

instance (c : Channel) (key : Nat) : DecidablePred (Message.Releases c key)
  | .noteOff channel k => inferInstanceAs (Decidable (channel = c ∧ k = key))
  | .noteOn channel k velocity => inferInstanceAs (Decidable (channel = c ∧ k = key ∧ velocity = 0))
  | .tempo _ | .program _ _ | .bend _ _ => inferInstanceAs (Decidable False)

/-- Before tick `stop` a key is released on a channel. -/
def ReleasedBefore (stop : Nat) (c : Channel) (key : Nat) (ms : List (Nat × Message)) : Prop :=
  ∃ m ∈ ms, m.1 < stop ∧ m.2.Releases c key

instance (stop : Nat) (c : Channel) (key : Nat) (ms : List (Nat × Message)) :
    Decidable (ReleasedBefore stop c key ms) :=
  inferInstanceAs (Decidable (∃ m ∈ ms, m.1 < stop ∧ m.2.Releases c key))

section Releases

variable {stop : Nat} {c : Channel} {key : Nat} {ms ms' : List (Nat × Message)}

theorem releasedBefore_append : ReleasedBefore stop c key (ms ++ ms') ↔
    ReleasedBefore stop c key ms ∨ ReleasedBefore stop c key ms' := by
  simp only [ReleasedBefore, List.mem_append, or_and_right, exists_or]

theorem later_not_early (h : ∀ m ∈ ms, stop ≤ m.1) : ¬ ReleasedBefore stop c key ms := by
  rintro ⟨m, hm, hearly, -⟩
  exact absurd hearly (Nat.not_lt.mpr (h m hm))

end Releases

/-! ### Where the note-on of a note stands -/

def Message.isNoteOn : Message → Bool
  | .noteOn .. => true
  | _ => false

/-- How many note-ons there are among some messages. -/
def noteOns (ms : List (Nat × Message)) : Nat := ms.countP fun m => m.2.isNoteOn

theorem noteOns_append (ms ms' : List (Nat × Message)) :
    noteOns (ms ++ ms') = noteOns ms + noteOns ms' := List.countP_append

theorem noteOns_map (tick : Nat) (messages : List Message) :
    noteOns (messages.map (tick, ·)) = messages.countP Message.isNoteOn := by
  rw [noteOns, List.countP_map]
  rfl

theorem noteOns_programMessages (program : Option Nat) (channels : List Channel) (tick : Nat) :
    noteOns ((programMessages program channels).map (tick, ·)) = 0 := by
  rw [noteOns_map, List.countP_eq_zero]
  intro m hm
  obtain ⟨number, -, channel, -, rfl⟩ := mem_programMessages hm
  exact Bool.false_ne_true

/-- The note-ons of voices at a tick. -/
def onsAt (tick : Nat) (voices : List Voice) : List (Nat × Message) :=
  voices.map fun v => (tick, .noteOn v.channel v.stroke.key v.stroke.velocity)

theorem noteOns_onsAt (tick : Nat) (voices : List Voice) :
    noteOns (onsAt tick voices) = voices.length := by
  rw [noteOns, onsAt, List.countP_map]
  exact List.countP_eq_length.mpr fun _ _ => rfl

/-- A gesture without bends is its note-ons and then its note-offs. -/
theorem Gesture.timed_eq {g : Gesture} (h : ∀ v ∈ g.voices, v.stroke.bend = none) :
    g.timed = onsAt g.start g.voices ++ g.offs.map (g.start + g.ticks, ·) := by
  have hbends : g.bends = [] := by
    rw [bends, List.filterMap_eq_nil_iff]
    intro v hv
    rw [h v hv]
    rfl
  rw [timed, hbends, List.nil_append, ons, List.map_map]
  rfl

theorem Gesture.noteOns_timed {g : Gesture} (h : ∀ v ∈ g.voices, v.stroke.bend = none) :
    noteOns g.timed = g.voices.length := by
  have hoffs : noteOns (g.offs.map (g.start + g.ticks, ·)) = 0 := by
    rw [noteOns_map, offs, List.countP_map, List.countP_eq_zero]
    exact fun _ _ => Bool.false_ne_true
  rw [timed_eq h, noteOns_append, noteOns_onsAt, hoffs]
  rfl

/-! ### Gestures of a retuned keyboard -/

section Plays

variable {strike : Note → Except Fault Stroke} {spread : Event → List Channel} {now : Nat}
  {gestures : List Gesture}

/-- What plays some events and then others plays first the ones and then the others. -/
theorem Plays.exists_split {es events : List Event}
    (h : Plays strike spread now (es ++ events) gestures) :
    ∃ gs gs' later, gestures = gs ++ gs' ∧ Plays strike spread now es gs ∧
      Plays strike spread later events gs' := by
  induction es generalizing now gestures with
  | nil => exact ⟨[], gestures, now, rfl, .finish, h⟩
  | cons e es ih =>
    cases h with
    | silent silence rest =>
      obtain ⟨gs, gs', later, rfl, hes, hevents⟩ := ih rest
      exact ⟨gs, gs', later, rfl, .silent silence hes, hevents⟩
    | @sound _ _ _ _ g start notes nonempty channels struck ticks rest =>
      obtain ⟨gs, gs', later, rfl, hes, hevents⟩ := ih rest
      exact ⟨g :: gs, gs', later, rfl, .sound start notes nonempty channels struck ticks hes,
        hevents⟩

/-- There is a note-on for each note of the events. -/
theorem Plays.noteOns_eq {events : List Event} (h : Plays strike spread now events gestures)
    (hbend : ∀ n s, strike n = .ok s → s.bend = none) :
    noteOns (gestures.flatMap Gesture.timed) = (events.flatMap Event.notes).length := by
  induction h with
  | finish => rfl
  | silent silence _ ih => rw [ih, List.flatMap_cons, silence, List.nil_append]
  | sound _ notes _ _ struck _ _ ih =>
    have hbends := fun v hv => hbend _ _ (struck v hv)
    rw [List.flatMap_cons, noteOns_append, ih, Gesture.noteOns_timed hbends, List.flatMap_cons,
      List.length_append, ← notes, List.length_map]

end Plays

/-! ### One note -/

section Mapped

variable {keys : Tuning.KeyMap} {ticksPerBeat : Nat}

/-- A note as loud as one that is heard has no velocity exactly if it is a rest. -/
theorem silent_iff_isRest {n m : Note} {s r : Stroke} (hvolume : n.volume = m.volume)
    (hsounds : n.isRest = false) (hs : Stroke.mapped keys ticksPerBeat n = .ok s)
    (hr : Stroke.mapped keys ticksPerBeat m = .ok r) (hheard : 0 < s.velocity) :
    r.velocity = 0 ↔ m.isRest := by
  obtain ⟨-, -, ⟨hrest, -⟩ | ⟨-, -, hvelocity⟩⟩ := Stroke.mapped_eq_ok hs
  · rw [hsounds] at hrest
    cases hrest
  obtain ⟨-, -, ⟨hrest, -, hsilent⟩ | ⟨hrest, -, hvelocity'⟩⟩ := Stroke.mapped_eq_ok hr
  · exact iff_of_true hsilent hrest
  · -- Equal volumes are equal velocities.
    rw [hvolume, hvelocity', Except.ok.injEq] at hvelocity
    exact iff_of_false (by omega) hrest

theorem key_of_isRest {m : Note} {r : Stroke} (hrest : m.isRest)
    (hr : Stroke.mapped keys ticksPerBeat m = .ok r) : r.key = 0 := by
  obtain ⟨-, -, ⟨-, hkey, -⟩ | ⟨hsounds, -⟩⟩ := Stroke.mapped_eq_ok hr
  · exact hkey
  · exact absurd hrest hsounds

/-- The note-ons behind that of a note release its key exactly if the key is 0 and one of them is
that of a rest, provided that there is any time until the end. -/
theorem releasedBefore_onsAt {v : Voice} {voices : List Voice} {start ticks : Nat}
    (hchannel : ∀ w ∈ voices, w.channel = v.channel)
    (hvolume : ∀ w ∈ voices, v.note.volume = w.note.volume)
    (hstruck : ∀ w ∈ voices, Stroke.mapped keys ticksPerBeat w.note = .ok w.stroke)
    (hv : Stroke.mapped keys ticksPerBeat v.note = .ok v.stroke) (hsounds : v.note.isRest = false)
    (hheard : 0 < v.stroke.velocity) :
    ReleasedBefore (start + ticks) v.channel v.stroke.key (onsAt start voices) ↔
      v.stroke.key = 0 ∧ 0 < ticks ∧ ∃ w ∈ voices, w.note.isRest := by
  constructor
  · rintro ⟨m, hm, hearly, hreleases⟩
    obtain ⟨w, hw, rfl⟩ := List.mem_map.mp hm
    obtain ⟨-, hkey, hvelocity⟩ := hreleases
    have hrest := (silent_iff_isRest (hvolume w hw) hsounds hv (hstruck w hw) hheard).mp hvelocity
    rw [key_of_isRest hrest (hstruck w hw)] at hkey
    exact ⟨hkey.symm, by omega, w, hw, hrest⟩
  · rintro ⟨hkey, hticks, w, hw, hrest⟩
    have hvelocity :=
      (silent_iff_isRest (hvolume w hw) hsounds hv (hstruck w hw) hheard).mpr hrest
    refine ⟨_, List.mem_map_of_mem hw, Nat.lt_add_of_pos_right hticks, hchannel w hw, ?_, hvelocity⟩
    rw [key_of_isRest hrest (hstruck w hw), hkey]

/-- Of what follows the note-on of a note only the other note-ons of its event come before its
end. -/
theorem releasedBefore_rest {c : Channel} {key : Nat} {g : Gesture} {voices : List Voice}
    {later : List (Nat × Message)} (hlater : ∀ m ∈ later, g.start + g.ticks ≤ m.1) :
    ReleasedBefore (g.start + g.ticks) c key
        (onsAt g.start voices ++ (g.offs.map (g.start + g.ticks, ·) ++ later)) ↔
      ReleasedBefore (g.start + g.ticks) c key (onsAt g.start voices) := by
  rw [releasedBefore_append, or_iff_left]
  apply later_not_early
  intro m hm
  rcases List.mem_append.mp hm with hoff | hm
  · obtain ⟨message, -, rfl⟩ := List.mem_map.mp hoff
    exact Nat.le_refl _
  · exact hlater m hm

/-- In what a part plays stands the note-on of each of its notes, behind those of the notes before
it.  As long as the note lasts its key is released exactly if it is 0 and a rest follows in the
event. -/
theorem Plays.exists_noteOn {c : Channel} {es es' : List Event} {e : Event} {ns ns' : List Note}
    {n : Note} {gestures : List Gesture}
    (h : Plays (Stroke.mapped keys ticksPerBeat) (fun e => List.replicate e.notes.length c) 0
      (es ++ e :: es') gestures)
    (hfits : ∀ n s, Stroke.mapped keys ticksPerBeat n = .ok s → s.Fits)
    (hnotes : e.notes = ns ++ n :: ns') (hsounds : n.isRest = false)
    (hvolume : ∀ m ∈ ns', n.volume = m.volume) :
    ∃ s before start after, Stroke.mapped keys ticksPerBeat n = .ok s ∧
      gestures.flatMap Gesture.timed
        = before ++ (start, .noteOn c s.key s.velocity) :: after ∧
      noteOns before = (es.flatMap Event.notes).length + ns.length ∧
      (0 < s.velocity → (ReleasedBefore (start + s.ticks) c s.key after ↔
        s.key = 0 ∧ 0 < s.ticks ∧ ∃ r ∈ ns', r.isRest)) := by
  have hchannel := h.exists_mem_spread
  obtain ⟨gs, _, now, rfl, hbefore, hevent⟩ := h.exists_split
  have hbend : ∀ n s, Stroke.mapped keys ticksPerBeat n = .ok s → s.bend = none :=
    fun n s hs => (Stroke.mapped_eq_ok hs).2.1
  cases hevent with
  | silent silence =>
    rw [hnotes] at silence
    exact absurd silence (List.append_ne_nil_of_right_ne_nil ns (List.cons_ne_nil n ns'))
  | @sound _ _ _ gs' g start voiced _ _ struck ticks rest =>
    -- The voices of the event are those before the note, its own, and those behind it.
    rw [hnotes, List.map_eq_append_iff] at voiced
    obtain ⟨vs, tail, hvoices, rfl, htail⟩ := voiced
    obtain ⟨v, vs', rfl, rfl, rfl⟩ := List.map_eq_cons_iff.mp htail
    have hmem : ∀ {w}, w ∈ vs' → w ∈ g.voices := by
      intro w hw
      rw [hvoices]
      exact List.mem_append_right vs (List.mem_cons_of_mem v hw)
    have hv : v ∈ g.voices := by
      rw [hvoices]
      exact List.mem_append_right vs List.mem_cons_self
    have hc : ∀ w ∈ g.voices, w.channel = c := by
      intro w hw
      obtain ⟨_, -, hmem⟩ := hchannel g (List.mem_append_right gs List.mem_cons_self) w hw
      exact List.eq_of_mem_replicate hmem
    subst start
    refine ⟨v.stroke, gs.flatMap Gesture.timed ++ onsAt g.start vs, g.start,
      onsAt g.start vs' ++ (g.offs.map (g.start + g.ticks, ·) ++ gs'.flatMap Gesture.timed),
      struck v hv, ?_, ?_, ?_⟩
    · rw [List.flatMap_append, List.flatMap_cons,
        Gesture.timed_eq fun w hw => hbend _ _ (struck w hw), hvoices, ← hc v hv]
      simp only [onsAt, List.map_append, List.map_cons, List.append_assoc, List.cons_append]
    · rw [noteOns_append, hbefore.noteOns_eq hbend, noteOns_onsAt, List.length_map]
    · intro hheard
      rw [ticks v hv, releasedBefore_rest (rest.spaced hfits).le, ← hc v hv,
        releasedBefore_onsAt (fun w hw => (hc w (hmem hw)).trans (hc v hv).symm)
          (fun w hw => hvolume w.note (List.mem_map_of_mem hw))
          (fun w hw => struck w (hmem hw)) (struck v hv) hsounds hheard]
      simp only [List.mem_map, exists_exists_and_eq_and]

end Mapped

/-! ### Files -/

section Files

variable {options : Options} {piece : Piece} {f : File}

/-- The parts of a file for a retuned keyboard play lines on the channels of their numbers. -/
theorem exists_mapped_line (htuning : options.tuning = .scala)
    (h : File.ofPiece options piece = .ok f) {i : Nat} {p : Part} (hp : piece.parts[i]? = some p) :
    ∃ k t l, f.keyboard = some k ∧ f.tracks[i + 1]? = some t ∧ t.timed = Line.timed l ∧
      Plays (Stroke.mapped k.keys options.ticksPerBeat)
        (fun e => List.replicate e.notes.length (Channel.ofNat i)) 0 p.events l.gestures := by
  obtain ⟨k, hk, -, hmapped⟩ := mappedParts_of_ofPiece htuning h
  obtain ⟨lines, hrenders, hlines, hchannels⟩ := mappedParts_eq_ok hmapped
  obtain ⟨l, hl, -, hplays⟩ := hlines.exists_line hp
  obtain ⟨t, ht, htimed⟩ := hrenders.exists_track hl
  -- The channel of a part is its number.
  have hchannel : l.channels = [Channel.ofNat i] := by
    have hi := (List.getElem?_eq_some_iff.mp hp).1
    have hat : (lines.map (·.channels))[i]? = some l.channels := by
      rw [List.getElem?_map, hl, Option.map_some]
    rw [hchannels, List.getElem?_map, List.getElem?_range' hi, Option.map_some, Option.some.injEq]
      at hat
    rw [← hat, Nat.zero_add, Nat.one_mul]
  rw [hchannel] at hplays
  simp only [List.flatMap_singleton] at hplays
  exact ⟨k, t, l, hk, ht, htimed, hplays⟩

/-- On a retuned keyboard a sounding note is cut short by nothing but a rest.  Of a text that can
be parsed, in the track of each part stands the note-on of each of its notes, behind as many
note-ons as there are notes before it; and if it has a velocity, then behind it and before the
ticks of the note are over its key is released exactly if it is key 0, that of the lowest
frequency, the note lasts any time, and a rest follows it in its chord. -/
theorem released_early_iff {source : String} (hparse : Piece.parse source = .ok piece)
    (htuning : options.tuning = .scala) (h : File.ofPiece options piece = .ok f) {i : Nat}
    {p : Part} (hp : piece.parts[i]? = some p) {es es' : List Event} {e : Event}
    (hevents : p.events = es ++ e :: es') {ns ns' : List Note} {n : Note}
    (hnotes : e.notes = ns ++ n :: ns') (hsounds : n.isRest = false) :
    ∃ k t s before start after, f.keyboard = some k ∧ f.tracks[i + 1]? = some t ∧
      Stroke.mapped k.keys options.ticksPerBeat n = .ok s ∧
      Track.byTick t.timed
        = before ++ (start, .noteOn (Channel.ofNat i) s.key s.velocity) :: after ∧
      noteOns before = (es.flatMap Event.notes).length + ns.length ∧
      (0 < s.velocity →
        (ReleasedBefore (start + s.ticks) (Channel.ofNat i) s.key after ↔
          s.key = 0 ∧ 0 < s.ticks ∧ ∃ r ∈ ns', r.isRest)) := by
  obtain ⟨k, t, l, hk, ht, htimed, hplays⟩ := exists_mapped_line htuning h hp
  obtain ⟨-, -, -, hparts⟩ := ofPiece_eq_ok h
  have hfits := fits_of_allParts hparts
  rw [hk] at hfits
  rw [hevents] at hplays
  have hvolume : ∀ m ∈ ns', n.volume = m.volume := by
    intro m hm
    have he : e ∈ p.events := hevents ▸ List.mem_append_right es List.mem_cons_self
    apply Notation.volume_eq_of_parse hparse (List.mem_of_getElem? hp) he
    · exact hnotes ▸ List.mem_append_right ns List.mem_cons_self
    · exact hnotes ▸ List.mem_append_right ns (List.mem_cons_of_mem n hm)
  obtain ⟨s, before, start, after, hs, hsplit, hcount, hreleased⟩ :=
    hplays.exists_noteOn hfits hnotes hsounds hvolume
  refine ⟨k, t, s, (programMessages l.program l.channels).map (0, ·) ++ before, start, after, hk,
    ht, hs, ?_, ?_, hreleased⟩
  · have hspaced := (readable_of_ofPiece h t (List.mem_of_getElem? ht)).spaced
    rw [hspaced.byTick_eq, htimed, Line.timed, hsplit, List.append_assoc]
  · rw [noteOns_append, noteOns_programMessages, hcount, Nat.zero_add]

/-- A chord of a note and a rest. -/
def noteAndRest : Piece :=
  let ratio (n : Int) : Quantity := .product ⟨[.ofInt n]⟩
  ⟨[⟨[.chord [⟨ratio 1, ratio 1, .one⟩, ⟨ratio 0, ratio 1, .one⟩]]⟩]⟩

theorem parse_noteAndRest : Piece.parse "<1 0>:1" = .ok noteAndRest :=
  eq_ok_of_toOption (by decide +kernel)

/-- The rest releases the note at the tick where it begins, and not after its 6720 ticks. -/
theorem note_released_by_rest : ∃ piece f n r t after,
    Piece.parse "<1 0>:1" = .ok piece ∧ File.ofPiece {} piece = .ok f ∧
      piece.parts = [⟨[.chord [n, r]]⟩] ∧ n.isRest = false ∧
      durationTicks 6720 n.duration = .ok 6720 ∧ f.tracks[1]? = some t ∧
      Track.byTick t.timed = (0, .noteOn 0 0 64) :: after ∧ ReleasedBefore 6720 0 0 after := by
  have hok : (File.ofPiece {} noteAndRest).isOk = true := by decide +kernel
  obtain ⟨f, h⟩ := exists_eq_ok hok
  have htracks : (File.ofPiece {} noteAndRest).toOption.map (fun f => f.tracks[1]?.map Track.timed)
      = some (some [(0, .noteOn 0 0 64), (0, .noteOn 0 0 0), (6720, .noteOff 0 0),
        (6720, .noteOff 0 0)]) := by decide +kernel
  rw [h] at htracks
  obtain ⟨t, ht, htimed⟩ := Option.map_eq_some_iff.mp (Option.some.inj htracks)
  have hspaced := (readable_of_ofPiece h t (List.mem_of_getElem? ht)).spaced
  refine ⟨noteAndRest, f, _, _, t, _, parse_noteAndRest, h, rfl, by decide +kernel,
    eq_ok_of_toOption (by decide +kernel), ht, hspaced.byTick_eq.trans htimed, ?_⟩
  exact ⟨_, List.mem_cons_self, by decide, rfl, rfl, rfl⟩

theorem released_early_noteAndRest : ∃ f n r,
    Piece.parse "<1 0>:1" = .ok noteAndRest ∧ File.ofPiece {} noteAndRest = .ok f ∧
    noteAndRest.parts[0]? = some ⟨[] ++ .chord ([] ++ [n, r]) :: []⟩ ∧ n.isRest = false ∧
    ∃ k t s before start after, f.keyboard = some k ∧ f.tracks[0 + 1]? = some t ∧
      Stroke.mapped k.keys 6720 n = .ok s ∧
      Track.byTick t.timed
        = before ++ (start, .noteOn (Channel.ofNat 0) s.key s.velocity) :: after ∧
      noteOns before = 0 ∧
      (0 < s.velocity →
        (ReleasedBefore (start + s.ticks) (Channel.ofNat 0) s.key after ↔
          s.key = 0 ∧ 0 < s.ticks ∧ ∃ r' ∈ [r], r'.isRest)) := by
  have hok : (File.ofPiece {} noteAndRest).isOk = true := by decide +kernel
  obtain ⟨f, h⟩ := exists_eq_ok hok
  have hp : noteAndRest.parts[0]? = some _ := rfl
  have hsounds : Note.isRest ⟨.product ⟨[.ofInt 1]⟩, .product ⟨[.ofInt 1]⟩, .one⟩ = false := by
    decide +kernel
  exact ⟨f, _, _, parse_noteAndRest, h, hp, hsounds,
    released_early_iff parse_noteAndRest rfl h hp (rfl : _ = [] ++ _ :: [])
      (rfl : _ = [] ++ _ :: [_]) hsounds⟩

end Files

end JustIntonation.Midi
