/-
JustIntonation/Proofs/Midi/Length.lean

How long a file plays.

Music is measured in beats and its file in ticks, and the two are counted in
different ways: beats are added up over the events, a chord lasting as long as
its longest note, while a track holds the ticks between its messages, and of
an event without notes holds nothing.  `InTicks` says that a number of beats
is so many ticks, exactly; it is kept by all that beats are counted with
(`InTicks.add`, `InTicks.larger`), and holds of every note that can be struck
(`InTicks.of_durationTicks`).

Main result: the delta times of each track add up to the duration of its
part, and the largest sum is the duration of the piece (`ticks_of_ofPiece`).
-/
import JustIntonation.Proofs.Midi.RoundTrip
import JustIntonation.Proofs.Music.Measure

namespace JustIntonation

/-! ### The largest number -/

namespace Number

theorem foldl_largest_mem (xs : List Number) : ∀ x : Number,
    xs.foldl (fun best y => if y.compare best = .lt then best else y) x ∈ x :: xs := by
  induction xs with
  | nil => exact fun x => List.mem_cons_self
  | cons y xs ih =>
    intro x
    rw [List.foldl_cons]
    split_ifs
    · rcases List.mem_cons.mp (ih x) with h | h
      · exact List.mem_cons.mpr (.inl h)
      · exact List.mem_cons_of_mem x (List.mem_cons_of_mem y h)
    · exact List.mem_cons_of_mem x (ih y)

theorem largest_mem {xs : List Number} (h : xs ≠ []) : largest xs ∈ xs := by
  cases xs with
  | nil => exact absurd rfl h
  | cons x xs => exact foldl_largest_mem xs x

end Number

/-- Every duration of the piece is exact. -/
def Piece.ExactDurations (p : Piece) : Prop :=
  ∀ n ∈ (Music.piece p).notes, n.duration.value.isExact

instance (p : Piece) : Decidable p.ExactDurations :=
  inferInstanceAs (Decidable (∀ n ∈ (Music.piece p).notes, n.duration.value.isExact))

namespace Midi

/-! ### Beats in ticks -/

/-- So many ticks are a number of beats, and nothing is rounded. -/
def InTicks (ticksPerBeat : ℕ) (beats : Number) (ticks : ℕ) : Prop :=
  ∃ q : ℚ, beats = .exact q ∧ (ticks : ℚ) = q * ticksPerBeat

section InTicks

variable {ticksPerBeat : ℕ} {a b : Number} {m n : ℕ}

theorem InTicks.zero : InTicks ticksPerBeat .zero 0 := ⟨0, rfl, (zero_mul _).symm⟩

theorem InTicks.add (ha : InTicks ticksPerBeat a m) (hb : InTicks ticksPerBeat b n) :
    InTicks ticksPerBeat (a + b) (m + n) := by
  obtain ⟨q, rfl, hm⟩ := ha
  obtain ⟨r, rfl, hn⟩ := hb
  refine ⟨q + r, rfl, ?_⟩
  rw [Nat.cast_add, hm, hn, add_mul]

/-- The larger number of beats is the larger number of ticks. -/
theorem InTicks.larger (ha : InTicks ticksPerBeat a m) (hb : InTicks ticksPerBeat b n) :
    InTicks ticksPerBeat (if b.compare a = .lt then a else b) (max m n) := by
  obtain ⟨q, rfl, hm⟩ := ha
  obtain ⟨r, rfl, hn⟩ := hb
  have hscale : (0 : ℚ) ≤ ticksPerBeat := Nat.cast_nonneg ticksPerBeat
  split_ifs with hcompare
  all_goals rw [Number.compare_eq_lt, Number.place_exact_lt] at hcompare
  · have hle : n ≤ m := by
      rw [← Nat.cast_le (α := ℚ), hm, hn]
      exact mul_le_mul_of_nonneg_right hcompare.le hscale
    rw [max_eq_left hle]
    exact ⟨q, rfl, hm⟩
  · have hle : m ≤ n := by
      rw [← Nat.cast_le (α := ℚ), hm, hn]
      exact mul_le_mul_of_nonneg_right (not_lt.mp hcompare) hscale
    rw [max_eq_right hle]
    exact ⟨r, rfl, hn⟩

theorem InTicks.largest {xs : List Number} {ns : List ℕ}
    (h : List.Forall₂ (InTicks ticksPerBeat) xs ns) :
    InTicks ticksPerBeat (Number.largest xs) (ns.foldl max 0) := by
  cases h with
  | nil => exact .zero
  | @cons x n xs ns hx hxs =>
    rw [List.foldl_cons, Nat.zero_max]
    -- The largest so far is in ticks, whatever comes.
    rw [Number.largest]
    induction hxs generalizing x n with
    | nil => exact hx
    | cons hy _ ih => exact ih (hx.larger hy)

/-- A note that can be struck has its duration in ticks. -/
theorem InTicks.of_durationTicks {duration : Quantity} {ticks : ℕ}
    (hexact : duration.value.isExact) (h : durationTicks ticksPerBeat duration = .ok ticks) :
    InTicks ticksPerBeat duration.value ticks := by
  simp only [durationTicks] at h
  split at h
  · rename_i q hq
    split_ifs at h with hwhole hrange
    refine ⟨q, hq, ?_⟩
    have hnum : ((q * ticksPerBeat).num : ℚ) = q * ticksPerBeat := (Rat.den_eq_one_iff _).mp hwhole
    have hticks : (ticks : ℤ) = (q * ticksPerBeat).num := by
      have hticks := Except.ok.inj h
      omega
    rw [← hnum, ← hticks, Int.cast_natCast]
  · rename_i x hx
    rw [hx] at hexact
    cases hexact

end InTicks

/-! ### The end of a track -/

section EndTick

theorem endTick_append (ms ms' : List (Nat × Message)) : ∀ last,
    endTick last (ms ++ ms') = endTick (endTick last ms) ms' := by
  induction ms with
  | nil => exact fun _ => rfl
  | cons m ms ih => exact fun _ => ih m.1

theorem endTick_map {messages : List Message} (h : messages ≠ []) (last tick : Nat) :
    endTick last (messages.map (tick, ·)) = tick := by
  induction messages generalizing last with
  | nil => exact absurd rfl h
  | cons m messages ih =>
    cases messages with
    | nil => rfl
    | cons m' messages => exact ih (List.cons_ne_nil m' messages) tick

/-- Messages at the tick that has been reached take no time. -/
theorem endTick_map_append (now : Nat) (messages : List Message) (ms : List (Nat × Message)) :
    endTick now (messages.map (now, ·) ++ ms) = endTick now ms := by
  cases messages with
  | nil => rfl
  | cons m messages => rw [endTick_append, endTick_map (List.cons_ne_nil m messages)]

theorem Gesture.endTick_timed {g : Gesture} (h : g.voices ≠ []) (last : Nat) :
    endTick last g.timed = g.start + g.ticks := by
  have hoffs : g.offs ≠ [] := fun hnil => h (List.map_eq_nil_iff.mp hnil)
  rw [timed, endTick_append, endTick_map hoffs]

/-- The delta times of messages in their order lead to the tick of the last. -/
theorem sum_deltas {ms : List (Nat × Message)} : ∀ {last : Nat}, Spaced last ms →
    last + ((deltas last ms).map Prod.fst).sum = endTick last ms := by
  induction ms with
  | nil => exact fun _ => rfl
  | cons m ms ih =>
    intro last h
    have hrest := ih h.2.2
    have hle := h.1
    rw [deltas, endTick, List.map_cons, List.sum_cons, ← hrest]
    omega

end EndTick

/-! ### The length of a part -/

section Plays

variable {strike : Note → Except Fault Stroke} {spread : Event → List Channel} {now : Nat}
  {events : List Event} {gestures : List Gesture}

/-- Gestures take their ticks one behind the other. -/
theorem Plays.endTick_eq (h : Plays strike spread now events gestures) :
    endTick now (gestures.flatMap Gesture.timed) = now + (gestures.map (·.ticks)).sum := by
  induction h with
  | finish => rfl
  | silent _ _ ih => exact ih
  | sound start notes nonempty _ _ _ _ ih =>
    subst start
    rw [List.flatMap_cons, endTick_append,
      Gesture.endTick_timed (Gesture.voices_ne_nil notes nonempty), ih, List.map_cons,
      List.sum_cons, Nat.add_assoc]

variable {ticksPerBeat : ℕ}

/-- A gesture has as many ticks as its event lasts. -/
theorem InTicks.of_voices {e : Event} {g : Gesture} (hnotes : g.voices.map (·.note) = e.notes)
    (hnonempty : e.notes ≠ []) (hticks : ∀ v ∈ g.voices, v.stroke.ticks = g.ticks)
    (hvoices : ∀ v ∈ g.voices, InTicks ticksPerBeat v.note.duration.value v.stroke.ticks) :
    InTicks ticksPerBeat e.totalDuration g.ticks := by
  -- The longest note is one of those that are struck, and these have equal ticks.
  have hmem : e.totalDuration ∈ e.notes.map fun n => n.duration.value := by
    rw [Event.totalDuration_eq]
    exact Number.largest_mem (mt List.map_eq_nil_iff.mp hnonempty)
  obtain ⟨n, hn, hduration⟩ := List.mem_map.mp hmem
  rw [← hnotes] at hn
  obtain ⟨v, hv, rfl⟩ := List.mem_map.mp hn
  have hvoice := hvoices v hv
  rw [hticks v hv] at hvoice
  rwa [← hduration]

/-- The gestures of some events have as many ticks as the events last, added to what has been
counted before. -/
theorem Plays.inTicks (h : Plays strike spread now events gestures)
    (hstrike : ∀ e ∈ events, ∀ n ∈ e.notes, ∀ s, strike n = .ok s →
      InTicks ticksPerBeat n.duration.value s.ticks) :
    ∀ {beats : Number} {ticks : ℕ}, InTicks ticksPerBeat beats ticks →
      InTicks ticksPerBeat ((events.map Event.totalDuration).foldl (· + ·) beats)
        (ticks + (gestures.map (·.ticks)).sum) := by
  induction h with
  | finish => exact fun hbeats => hbeats
  | @silent now e es gs silence _ ih =>
    -- An event without notes lasts no time.
    intro beats ticks hbeats
    obtain ⟨-, hes⟩ := List.forall_mem_cons.mp hstrike
    have hzero : e.totalDuration = .zero := by
      rw [Event.totalDuration_eq, silence]
      rfl
    have hbeats' := hbeats.add InTicks.zero
    rw [List.map_cons, List.foldl_cons, hzero]
    exact ih hes hbeats'
  | @sound now e es gs g _ notes nonempty _ struck ticks _ ih =>
    intro beats before hbeats
    obtain ⟨he, hes⟩ := List.forall_mem_cons.mp hstrike
    have hevent : InTicks ticksPerBeat e.totalDuration g.ticks := by
      apply InTicks.of_voices notes nonempty ticks
      intro v hv
      refine he v.note ?_ v.stroke (struck v hv)
      rw [← notes]
      exact List.mem_map_of_mem hv
    rw [List.map_cons, List.foldl_cons, List.map_cons, List.sum_cons, ← Nat.add_assoc]
    exact ih hes (hbeats.add hevent)

end Plays

/-! ### Files -/

/-- The ticks of a track as one counts them who reads its bytes: all delta times added up. -/
def Track.readTicks (t : Track) : Option ℕ :=
  (Reader.trackEvents none t.body).map fun events => (events.map Prod.fst).sum

theorem Readable.readTicks_eq {t : Track} (h : Readable t) :
    t.readTicks = some (endTick 0 t.timed) := by
  rw [Track.readTicks, h.trackEvents_body, Option.map_some, ← sum_deltas h.spaced, Nat.zero_add]

theorem readTicks_tempo {t0 : Binary64} {t : Track} (h : tempoTrack t0 = .ok t) :
    t.readTicks = some 0 := by
  have hreadable := readable_tempo h
  obtain ⟨microseconds, -, -, rfl⟩ := tempoTrack_eq_ok h
  exact hreadable.readTicks_eq

variable {options : Options} {piece : Piece} {f : File}

/-- A struck note has its duration in ticks, however it is struck. -/
theorem Options.durationTicks_of_strike {keyboard : Option Tuning.Keyboard} {n : Note} {s : Stroke}
    (h : options.strike keyboard n = .ok s) :
    durationTicks options.ticksPerBeat n.duration = .ok s.ticks := by
  cases keyboard with
  | none => exact (Stroke.bent_eq_ok h).1
  | some k => exact (Stroke.mapped_eq_ok h).1

/-- The line of a part ends with the part. -/
theorem Line.inTicks {keyboard : Option Tuning.Keyboard} {p : Part} {l : Line}
    (hexact : ∀ e ∈ p.events, ∀ n ∈ e.notes, n.duration.value.isExact)
    (hplays : Plays (options.strike keyboard) (Midi.spread keyboard l.channels) 0 p.events
      l.gestures) :
    InTicks options.ticksPerBeat p.totalDuration (endTick 0 l.timed) := by
  rw [Line.timed, endTick_map_append, hplays.endTick_eq]
  exact hplays.inTicks (fun e he n hn s hs =>
    .of_durationTicks (hexact e he n hn) (Options.durationTicks_of_strike hs)) InTicks.zero

theorem Lines.forall₂_inTicks {keyboard : Option Tuning.Keyboard} {index : Nat} {ps : List Part}
    {ls : List Line}
    (h : Lines (options.strike keyboard) (spread keyboard) options.programs index ps ls)
    (hexact : ∀ p ∈ ps, ∀ e ∈ p.events, ∀ n ∈ e.notes, n.duration.value.isExact) :
    List.Forall₂ (InTicks options.ticksPerBeat) (ps.map Part.totalDuration)
      (ls.map fun l => endTick 0 l.timed) := by
  induction h with
  | nil => exact .nil
  | cons _ plays _ ih =>
    obtain ⟨hp, hps⟩ := List.forall_mem_cons.mp hexact
    exact .cons (Line.inTicks hp plays) (ih hps)

/-- The time of a file is that of the music.  Of a piece whose durations are exact every track
can be read back, the tempo track having no ticks and the track of each part as many as the part
lasts; and the largest of these numbers, none being 0, is how long the piece lasts. -/
theorem ticks_of_ofPiece (hexact : piece.ExactDurations) (h : File.ofPiece options piece = .ok f) :
    ∃ ticks : List ℕ, f.tracks.map Track.readTicks = some 0 :: ticks.map some ∧
      List.Forall₂ (InTicks options.ticksPerBeat) (piece.parts.map Part.totalDuration) ticks ∧
      InTicks options.ticksPerBeat piece.totalDuration (ticks.foldl max 0) := by
  have hreadable := readable_of_ofPiece h
  obtain ⟨-, htempo, -, hparts⟩ := ofPiece_eq_ok h
  obtain ⟨lines, hrenders, hlines⟩ := exists_lines hparts
  have hticks := hlines.forall₂_inTicks
    fun p hp e he n hn => hexact n (Piece.mem_notes hp he hn)
  refine ⟨_, ?_, hticks, InTicks.largest hticks⟩
  have hread : (f.parts.map Prod.snd).map Track.readTicks
      = ((f.parts.map Prod.snd).map Track.timed).map fun ms => some (endTick 0 ms) := by
    rw [List.map_map (f := Track.timed)]
    apply List.map_congr_left
    intro t ht
    exact (hreadable t (List.mem_cons_of_mem _ ht)).readTicks_eq
  rw [File.tracks, List.map_cons, readTicks_tempo htempo, hread, hrenders.map_timed, List.map_map,
    List.map_map]
  rfl

theorem ticks_octave : octaveAndRest.ExactDurations ∧
    ∃ f ticks, File.ofPiece bentFromMiddleC octaveAndRest = .ok f ∧
      f.tracks.map Track.readTicks = some 0 :: ticks.map some ∧
      List.Forall₂ (InTicks bentFromMiddleC.ticksPerBeat)
        (octaveAndRest.parts.map Part.totalDuration) ticks ∧
      InTicks bentFromMiddleC.ticksPerBeat octaveAndRest.totalDuration (ticks.foldl max 0) := by
  have hexact : octaveAndRest.ExactDurations := by decide +kernel
  have hok : (File.ofPiece bentFromMiddleC octaveAndRest).isOk = true := by decide +kernel
  obtain ⟨f, h⟩ := exists_eq_ok hok
  obtain ⟨ticks, hticks⟩ := ticks_of_ofPiece hexact h
  exact ⟨hexact, f, ticks, h, hticks⟩

end Midi

end JustIntonation
