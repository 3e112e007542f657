/-
JustIntonation/Proofs/Midi/RoundTrip.lean

A file, read back.

Whatever the piece, the tracks of its file can be read back: the messages of
a line stand in the order of their ticks, with no gap longer than an event
(`Plays.spaced`), because the note-offs of an event end it, and all their
numbers fit (`Plays.fits`).  So a reader finds the header, the tempo and for
each part exactly the messages that its notes ask for
(`exists_readBack_of_ofPiece`).
-/
import JustIntonation.Proofs.Midi.Decoding
import JustIntonation.Proofs.Midi.Stroke

namespace JustIntonation.Midi

variable {strike : Note → Except Fault Stroke} {spread : Event → List Channel}

/-! ### Gestures are spaced -/

theorem spaced_map_append (now : Nat) (ms : List Message) (rest : List (Nat × Message)) :
    Spaced now (ms.map (now, ·) ++ rest) ↔ Spaced now rest := by
  induction ms with
  | nil => rfl
  | cons m ms ih => simp [Spaced, ih]

/-- A gesture with voices takes the time from its start to its end. -/
theorem Gesture.spaced_append {g : Gesture} (hvoices : g.voices ≠ [])
    (hticks : g.ticks ≤ maxVariableLength) {rest : List (Nat × Message)}
    (hrest : Spaced (g.start + g.ticks) rest) : Spaced g.start (g.timed ++ rest) := by
  obtain ⟨v, voices, hv⟩ := List.exists_cons_of_ne_nil hvoices
  rw [Gesture.timed, List.append_assoc, spaced_map_append, Gesture.offs, hv]
  simp only [List.map_cons, List.cons_append]
  -- The first note-off waits for the whole gesture, and the others do not wait.
  refine ⟨Nat.le_add_right _ _, Nat.add_le_add_left hticks _, ?_⟩
  exact (spaced_map_append _ _ _).mpr hrest

theorem Gesture.fits_timed {g : Gesture} (h : ∀ v ∈ g.voices, v.stroke.Fits) :
    ∀ m ∈ g.timed, m.2.Fits := by
  intro m hm
  obtain ⟨v, hv, ⟨amount, hamount, rfl⟩ | rfl | rfl⟩ := Gesture.mem_timed hm
  · exact (h v hv).bend amount hamount
  · exact ⟨(h v hv).key, (h v hv).velocity⟩
  · exact (h v hv).key

theorem Plays.spaced {now : Nat} {events : List Event} {gestures : List Gesture}
    (h : Plays strike spread now events gestures)
    (hfits : ∀ n s, strike n = .ok s → s.Fits) : Spaced now (gestures.flatMap Gesture.timed) := by
  induction h with
  | finish => trivial
  | silent _ _ ih => exact ih
  | @sound now e es gs g start notes nonempty _ struck ticks _ ih =>
    subst start
    have hvoices := Gesture.voices_ne_nil notes nonempty
    obtain ⟨v, hv⟩ := List.exists_mem_of_ne_nil _ hvoices
    have hticks : g.ticks ≤ maxVariableLength := by
      rw [← ticks v hv]
      exact (hfits v.note v.stroke (struck v hv)).ticks
    rw [List.flatMap_cons]
    exact Gesture.spaced_append hvoices hticks ih

theorem Plays.fits {now : Nat} {events : List Event} {gestures : List Gesture}
    (h : Plays strike spread now events gestures)
    (hfits : ∀ n s, strike n = .ok s → s.Fits) :
    ∀ m ∈ gestures.flatMap Gesture.timed, m.2.Fits := by
  induction h with
  | finish => simp
  | silent _ _ ih => exact ih
  | sound _ _ _ _ struck _ _ ih =>
    intro m hm
    rw [List.flatMap_cons, List.mem_append] at hm
    obtain hm | hm := hm
    · exact Gesture.fits_timed (fun v hv => hfits v.note v.stroke (struck v hv)) m hm
    · exact ih m hm

/-! ### Lines can be read back -/

theorem programOf_lt {programs : List (Option Nat)} {index number : Nat}
    (h : programOf programs index = .ok (some number)) : number < 128 := by
  simp only [programOf] at h
  split at h
  · split_ifs at h with hrange
    have hnumber := Except.ok.inj h
    simp only [Option.some.injEq] at hnumber
    omega
  · simp at h

theorem Line.spaced {l : Line} {events : List Event}
    (h : Plays strike spread 0 events l.gestures) (hfits : ∀ n s, strike n = .ok s → s.Fits) :
    Spaced 0 l.timed := by
  rw [Line.timed, spaced_map_append]
  exact h.spaced hfits

theorem Line.fits {programs : List (Option Nat)} {index : Nat} {l : Line} {events : List Event}
    (hprogram : programOf programs index = .ok l.program)
    (h : Plays strike spread 0 events l.gestures) (hfits : ∀ n s, strike n = .ok s → s.Fits) :
    ∀ m ∈ l.timed, m.2.Fits := by
  intro m hm
  rw [Line.timed, List.mem_append] at hm
  obtain hm | hm := hm
  · obtain ⟨message, hmessage, rfl⟩ := List.mem_map.mp hm
    obtain ⟨number, hnumber, channel, -, rfl⟩ := mem_programMessages hmessage
    exact programOf_lt (hnumber ▸ hprogram)
  · exact h.fits hfits m hm

/-- However the notes of a file are struck, the strokes fit. -/
theorem fits_of_allParts {options : Options} {ps : List Part}
    {parts : List (List Channel × Track)} {keyboard : Option Tuning.Keyboard}
    (h : allParts options ps = .ok (parts, keyboard)) :
    ∀ n s, options.strike keyboard n = .ok s → s.Fits := by
  intro n s hs
  obtain ⟨-, rfl, -⟩ | ⟨k, -, rfl, -, hk, -⟩ := allParts_eq_ok h
  · exact Stroke.fits_bent hs
  · exact Stroke.fits_mapped
      (fun f key hfind => Tuning.Keyboard.find?_lt (Music.frequencies_ascending _) hk hfind) hs

/-! ### The tracks of a file -/

/-- The tracks of the parts are written as their lines say. -/
theorem Renders.map_timed {parts : List (List Channel × Track)} {lines : List Line}
    (h : Renders parts lines) :
    (parts.map Prod.snd).map Track.timed = lines.map Line.timed := by
  have hsnd := congrArg (List.map Prod.snd) h
  rw [List.map_map, List.map_map] at hsnd
  rw [List.map_map]
  exact hsnd

/-- The track that is written as a line. -/
theorem Renders.exists_track {parts : List (List Channel × Track)} {lines : List Line}
    (h : Renders parts lines) {i : Nat} {l : Line} (hl : lines[i]? = some l) :
    ∃ t, (parts.map Prod.snd)[i]? = some t ∧ t.timed = l.timed := by
  have htimed : ((parts.map Prod.snd).map Track.timed)[i]? = some l.timed := by
    rw [h.map_timed, List.getElem?_map, hl, Option.map_some]
  rwa [List.getElem?_map, Option.map_eq_some_iff] at htimed

theorem Renders.map_channels {parts : List (List Channel × Track)} {lines : List Line}
    (h : Renders parts lines) : parts.map Prod.fst = lines.map (·.channels) := by
  have hfst := congrArg (List.map Prod.fst) h
  rw [List.map_map, List.map_map] at hfst
  exact hfst

/-- The line of a part of a file. -/
theorem exists_line_of_allParts {options : Options} {ps : List Part} {f : File}
    (h : allParts options ps = .ok (f.parts, f.keyboard)) {index : Nat} {p : Part}
    (hp : ps[index]? = some p) : ∃ l t, f.channels[index]? = some l.channels ∧
      f.tracks[index + 1]? = some t ∧ t.timed = Line.timed l ∧
      programOf options.programs index = .ok l.program ∧
      Plays (options.strike f.keyboard) (Midi.spread f.keyboard l.channels) 0 p.events l.gestures := by
  obtain ⟨lines, hrenders, hlines⟩ := exists_lines h
  obtain ⟨l, hl, hprogram, hplays⟩ := hlines.exists_line hp
  obtain ⟨t, ht, htimed⟩ := hrenders.exists_track hl
  rw [Nat.zero_add] at hprogram
  refine ⟨l, t, ?_, ht, htimed, hprogram, hplays⟩
  rw [File.channels, hrenders.map_channels, List.getElem?_map, hl, Option.map_some]

theorem readable_tempo {t0 : Binary64} {t : Track} (h : tempoTrack t0 = .ok t) : Readable t := by
  obtain ⟨microseconds, hfits, -, rfl⟩ := tempoTrack_eq_ok h
  refine ⟨⟨Nat.zero_le 0, Nat.zero_le _, trivial⟩, ?_⟩
  intro m hm
  rw [List.mem_singleton.mp hm]
  exact hfits

/-- Every track of a file can be read back. -/
theorem readable_of_ofPiece {options : Options} {piece : Piece} {f : File}
    (h : File.ofPiece options piece = .ok f) : ∀ t ∈ f.tracks, Readable t := by
  obtain ⟨-, htempo, -, hparts⟩ := ofPiece_eq_ok h
  obtain ⟨lines, hrenders, hlines⟩ := exists_lines hparts
  have hfits := fits_of_allParts hparts
  intro t ht
  obtain rfl | hpart := List.mem_cons.mp ht
  · exact readable_tempo htempo
  · -- The messages of a part's track are those of a line, and its events give their numbers.
    obtain ⟨l, hl, htimed⟩ : ∃ l ∈ lines, l.timed = t.timed := by
      rw [← List.mem_map, ← hrenders.map_timed]
      exact List.mem_map_of_mem hpart
    obtain ⟨i, hi⟩ := List.mem_iff_getElem?.mp hl
    obtain ⟨p, -, hprogram, hplays⟩ := hlines.exists_part hi
    constructor
    · rw [← htimed]
      exact Line.spaced hplays hfits
    · rw [← htimed]
      exact Line.fits hprogram hplays hfits

/-! ### Files, read back -/

/-- What a reader finds of the part at `index`, on the channels that the file names for it: the
program on each of them at tick 0, the gestures of the events one behind the other, and an end
of track that does not wait. -/
structure PartReadBack (options : Options) (f : File) (index : Nat) (p : Part) (l : Line)
    (track : List (Nat × TrackEvent)) : Prop where
  channels : f.channels[index]? = some l.channels
  program : programOf options.programs index = .ok l.program
  plays : Plays (options.strike f.keyboard) (Midi.spread f.keyboard l.channels) 0 p.events
    l.gestures
  bends : ∀ g ∈ l.gestures, ∀ v ∈ g.voices,
    (v.stroke.bend.isSome ↔ options.tuning = .pitchBend)
  messages : absolute 0 track
    = l.timed.map (fun m => (m.1, m.2.event)) ++ [(endTick 0 l.timed, .endOfTrack)]

/-- What a reader finds in the file of a piece. -/
structure ReadBack (options : Options) (piece : Piece) (f : File) (contents : Contents) :
    Prop where
  headerLength : contents.headerLength = 6
  format : contents.format = 1
  trackCount : contents.trackCount = piece.parts.length + 1
  division : contents.division = options.ticksPerBeat
  length_tracks : contents.tracks.length = piece.parts.length + 1
  deltas : ∀ track ∈ contents.tracks, ∀ e ∈ track, e.1 ≤ maxVariableLength
  keyboard : options.tuning = .pitchBend ∧ f.keyboard = none ∨
    ∃ k, options.tuning = .scala ∧ Music.keyboard options.f0 (.piece piece) = .ok k ∧
      f.keyboard = some k
  tempo : ∃ track microseconds, contents.tracks[0]? = some track ∧
    (options.t0 / .ofDecimal false 1 (-6)).roundEven.toInt64 = (microseconds : Nat) ∧
    absolute 0 track = [(0, .tempo microseconds), (0, .endOfTrack)]
  parts : ∀ index p, piece.parts[index]? = some p → ∃ l track,
    contents.tracks[index + 1]? = some track ∧ PartReadBack options f index p l track

/-- Notes have bends exactly where the keyboard keeps its tuning. -/
theorem isSome_bend_iff {options : Options} {ps : List Part}
    {parts : List (List Channel × Track)} {keyboard : Option Tuning.Keyboard}
    (h : allParts options ps = .ok (parts, keyboard)) {n : Note} {s : Stroke}
    (hs : options.strike keyboard n = .ok s) :
    s.bend.isSome ↔ options.tuning = .pitchBend := by
  obtain ⟨htuning, rfl, -⟩ | ⟨k, htuning, rfl, -⟩ := allParts_eq_ok h
  · obtain ⟨amount, hbend⟩ := Stroke.exists_bend_of_bent hs
    simp [hbend, htuning]
  · obtain ⟨-, hbend, -⟩ := Stroke.mapped_eq_ok hs
    simp [hbend, htuning]

/-- A track, read back: its messages at their ticks, and the end behind the last. -/
theorem Readable.absolute_deltas {t : Track} (h : Readable t) :
    absolute 0 (deltas 0 t.timed)
      = t.timed.map (fun m => (m.1, m.2.event)) ++ [(endTick 0 t.timed, .endOfTrack)] :=
  Midi.absolute_deltas h.spaced

theorem partReadBack_of_allParts {options : Options} {ps : List Part} {f : File}
    (h : allParts options ps = .ok (f.parts, f.keyboard))
    (hreadable : ∀ t ∈ f.tracks, Readable t) {index : Nat} {p : Part} (hp : ps[index]? = some p) :
    ∃ l t, f.tracks[index + 1]? = some t ∧
      PartReadBack options f index p l (deltas 0 t.timed) := by
  obtain ⟨l, t, hchannels, ht, htimed, hprogram, hplays⟩ := exists_line_of_allParts h hp
  refine ⟨l, t, ht, hchannels, hprogram, hplays, ?_, ?_⟩
  · intro g hg v hv
    exact isSome_bend_iff h (hplays.struck g hg v hv)
  · have hmem : t ∈ f.tracks := List.mem_cons_of_mem _ (List.mem_of_getElem? ht)
    rw [(hreadable t hmem).absolute_deltas, htimed]

/-- A file that could be made, the division being a number of two bytes and the tracks short
enough for their lengths to be written, is read back completely: by a reader that knows the file
format and nothing else, to the last byte. -/
theorem exists_readBack_of_ofPiece {options : Options} {piece : Piece} {f : File}
    (hdivision : options.ticksPerBeat < 2 ^ 16) (h : File.ofPiece options piece = .ok f)
    (hshort : ∀ t ∈ f.tracks, t.body.length < 2 ^ 32) :
    ∃ contents, Contents.read f.bytes = some contents ∧ ReadBack options piece f contents := by
  have hreadable := readable_of_ofPiece h
  obtain ⟨hticks, htempo, hcount, hparts⟩ := ofPiece_eq_ok h
  have hlength : f.tracks.length = piece.parts.length + 1 := by
    obtain ⟨lines, hrenders, hlines⟩ := exists_lines hparts
    have hparts := congrArg List.length hrenders.map_channels
    rw [List.length_map, List.length_map, hlines.length_eq] at hparts
    rw [File.tracks, List.length_cons, List.length_map, hparts]
  have htracks : f.tracks.length < 2 ^ 16 := by
    rw [hlength]
    rw [maxTracks] at hcount
    omega
  -- The reader gets the tracks as they were written; what is left is to say what they hold.
  have hread := read_bytes htracks (by rw [hticks]; exact hdivision) hreadable hshort
  refine ⟨_, hread, ?_⟩
  constructor
  case headerLength => rfl
  case format => rfl
  case trackCount => exact hlength
  case division => exact hticks
  case length_tracks => rw [List.length_map, hlength]
  case deltas =>
    intro track htrack e he
    obtain ⟨t, ht, rfl⟩ := List.mem_map.mp htrack
    exact deltas_le (hreadable t ht).spaced e he
  case keyboard =>
    obtain ⟨htuning, hkeyboard, -⟩ | ⟨k, htuning, hkeyboard, -, hk, -⟩ := allParts_eq_ok hparts
    · exact .inl ⟨htuning, hkeyboard⟩
    · exact .inr ⟨k, htuning, hk, hkeyboard⟩
  case tempo =>
    obtain ⟨microseconds, -, hvalue, ht⟩ := tempoTrack_eq_ok htempo
    refine ⟨deltas 0 f.tempo.timed, microseconds, rfl, hvalue, ?_⟩
    rw [ht]
    rfl
  case parts =>
    intro index p hp
    obtain ⟨l, t, ht, hpart⟩ := partReadBack_of_allParts hparts hreadable hp
    refine ⟨l, deltas 0 t.timed, ?_, hpart⟩
    rw [List.getElem?_map, ht, Option.map_some]

theorem exists_readBack_octave : ∃ f contents,
    File.ofPiece bentFromMiddleC octaveAndRest = .ok f ∧
    Contents.read f.bytes = some contents ∧
    ReadBack bentFromMiddleC octaveAndRest f contents := by
  have hmade : ((File.ofPiece bentFromMiddleC octaveAndRest).toOption.map
      fun f => f.tracks.map (·.timed.length)) = some [1, 11, 6, 0] := by decide +kernel
  cases h : File.ofPiece bentFromMiddleC octaveAndRest with
  | error fault =>
    rw [h] at hmade
    cases hmade
  | ok f =>
    rw [h] at hmade
    have hcounts : f.tracks.map (·.timed.length) = [1, 11, 6, 0] := Option.some.inj hmade
    have hshort : ∀ t ∈ f.tracks, t.body.length < 2 ^ 32 := by
      intro t ht
      have hcount : t.timed.length ∈ [1, 11, 6, 0] := by
        rw [← hcounts]
        exact List.mem_map_of_mem ht
      have hbody := Track.length_body_le t
      simp only [List.mem_cons, List.not_mem_nil, or_false] at hcount
      omega
    obtain ⟨contents, hread, hcontents⟩ :=
      exists_readBack_of_ofPiece (Nat.lt_of_sub_eq_succ rfl) h hshort
    exact ⟨f, contents, rfl, hread, hcontents⟩

end JustIntonation.Midi
