/-
JustIntonation/Proofs/Midi/Undisturbed.lean

No sounding note is disturbed under pitch bend.

A synthesizer gets the tracks of a file as one stream, merged in any way that
keeps the order of each (`Merge`).  Every channel is used by one part only,
so what comes on a channel is what that part's track sends on it, whatever
the merge (`Merge.eq_flatten`).  There the notes take turns (`Turns`): the
notes of a chord have channels of their own, and the note-offs of an event
are written before the bends of the next, also where both are at one tick.

Main result: on every channel each note has its own bend just before its
note-on and its note-off just behind, and at most one key is held at a time
(`undisturbed_of_ofPiece`).
-/
import JustIntonation.Proofs.Midi.RoundTrip
import Mathlib.Data.List.Nodup

namespace JustIntonation.Midi

/-! ### Merges -/

/-- Lists merged into one that keeps the order of each. -/
inductive Merge {α : Type} : List (List α) → List α → Prop
  | done {tracks} (empty : ∀ t ∈ tracks, t = []) : Merge tracks []
  | take {before after t x merged} (rest : Merge (before ++ t :: after) merged) :
      Merge (before ++ (x :: t) :: after) (x :: merged)

section Merge

variable {α : Type} {tracks : List (List α)} {merged : List α}

theorem Merge.cons_nil (h : Merge tracks merged) : Merge ([] :: tracks) merged := by
  induction h with
  | done empty => exact .done (List.forall_mem_cons.mpr ⟨rfl, empty⟩)
  | @take before after t x merged _ ih =>
    exact @Merge.take _ ([] :: before) after t x merged ih

/-- Lists one behind the other are merged. -/
theorem Merge.flatten (tracks : List (List α)) : Merge tracks tracks.flatten := by
  induction tracks with
  | nil => exact .done nofun
  | cons t tracks ih =>
    induction t with
    | nil => exact ih.cons_nil
    | cons x t iht => exact @Merge.take _ [] tracks t x _ iht

/-- What is kept of a merge is a merge of what is kept of the lists. -/
theorem Merge.filter (p : α → Bool) (h : Merge tracks merged) :
    Merge (tracks.map (List.filter p)) (merged.filter p) := by
  induction h with
  | done empty =>
    apply Merge.done
    intro t ht
    obtain ⟨u, hu, rfl⟩ := List.mem_map.mp ht
    rw [empty u hu]
    rfl
  | @take before after t x merged _ ih =>
    rw [List.map_append, List.map_cons] at ih ⊢
    by_cases hx : p x
    · rw [List.filter_cons_of_pos hx, List.filter_cons_of_pos hx]
      exact ih.take
    · -- An element that is not kept is missed on both sides.
      rw [List.filter_cons_of_neg hx, List.filter_cons_of_neg hx]
      exact ih

/-- A merge of lists of which at most one holds anything. -/
theorem Merge.eq_flatten (h : Merge tracks merged)
    (halone : tracks.Pairwise fun a b => a = [] ∨ b = []) : merged = tracks.flatten := by
  induction h with
  | done empty => exact (List.flatten_eq_nil_iff.mpr empty).symm
  | @take before after t x merged _ ih =>
    rw [List.pairwise_append, List.pairwise_cons] at halone
    obtain ⟨hbefore, ⟨hfirst, hafter⟩, hcross⟩ := halone
    -- The list that the element comes from holds something, so all others are empty.
    have hbeforeNil : ∀ b ∈ before, b = [] := by
      intro b hb
      rcases hcross b hb (x :: t) List.mem_cons_self with hnil | hnil
      · exact hnil
      · cases hnil
    have hafterNil : ∀ a ∈ after, a = [] := by
      intro a ha
      rcases hfirst a ha with hnil | hnil
      · cases hnil
      · exact hnil
    have hmerged : merged = (before ++ t :: after).flatten := by
      apply ih
      rw [List.pairwise_append, List.pairwise_cons]
      exact ⟨hbefore, ⟨fun a ha => .inr (hafterNil a ha), hafter⟩,
        fun b hb _ _ => .inl (hbeforeNil b hb)⟩
    rw [hmerged, List.flatten_append, List.flatten_append, List.flatten_eq_nil_iff.mpr hbeforeNil]
    rfl

end Merge

/-! ### One channel -/

def Message.channel? : Message → Option Channel
  | .tempo _ => none
  | .program channel _ => some channel
  | .bend channel _ => some channel
  | .noteOn channel _ _ => some channel
  | .noteOff channel _ => some channel

/-- The messages on a channel. -/
def onChannel (c : Channel) (ms : List (Nat × Message)) : List (Nat × Message) :=
  ms.filter fun m => m.2.channel? = some c

/-- Nothing comes on a channel. -/
def Silent (c : Channel) (ms : List (Nat × Message)) : Prop := ∀ m ∈ ms, m.2.channel? ≠ some c

/-- The keys that are held on a channel after a message, from those held before it. -/
def Message.hold (c : Channel) (keys : List Nat) : Message → List Nat
  | .noteOn channel key _ => if channel = c then key :: keys else keys
  | .noteOff channel key => if channel = c then keys.erase key else keys
  | _ => keys

/-- The keys that are held on a channel after some messages. -/
def held (c : Channel) (ms : List (Nat × Message)) : List Nat :=
  ms.foldl (fun keys m => m.2.hold c keys) []

variable {c : Channel} {ms : List (Nat × Message)}

theorem onChannel_eq_nil_iff : onChannel c ms = [] ↔ Silent c ms := by
  simp [onChannel, Silent]

theorem onChannel_append (ms ms' : List (Nat × Message)) :
    onChannel c (ms ++ ms') = onChannel c ms ++ onChannel c ms' := List.filter_append ..

theorem onChannel_cons_of_eq {m : Nat × Message} (h : m.2.channel? = some c) :
    onChannel c (m :: ms) = m :: onChannel c ms := List.filter_cons_of_pos (decide_eq_true h)

theorem onChannel_cons_of_ne {m : Nat × Message} (h : m.2.channel? ≠ some c) :
    onChannel c (m :: ms) = onChannel c ms := List.filter_cons_of_neg (by simpa using h)

theorem Message.hold_of_ne {m : Message} (h : m.channel? ≠ some c) (keys : List Nat) :
    m.hold c keys = keys := by
  cases m with
  | tempo | program | bend => rfl
  | noteOn channel | noteOff channel =>
    have hne : channel ≠ c := fun heq => h (congrArg some heq)
    exact if_neg hne

/-- Other channels do not matter. -/
theorem held_onChannel (c : Channel) (ms : List (Nat × Message)) :
    held c (onChannel c ms) = held c ms := by
  -- For the induction the keys that are held before are any.
  have hfoldl : ∀ keys, (onChannel c ms).foldl (fun keys m => m.2.hold c keys) keys
      = ms.foldl (fun keys m => m.2.hold c keys) keys := by
    induction ms with
    | nil => exact fun _ => rfl
    | cons m ms ih =>
      intro keys
      by_cases hm : m.2.channel? = some c
      · rw [onChannel_cons_of_eq hm]
        exact ih _
      · rw [onChannel_cons_of_ne hm, List.foldl_cons, Message.hold_of_ne hm]
        exact ih _
  exact hfoldl []

/-! ### Notes that take turns -/

/-- The messages of a channel on which notes take turns: each with its bend and its note-on at
its start and, with nothing in between, its note-off when its ticks are over.  `sounds` says
which notes there are and where they start. -/
inductive Turns (sounds : Nat → Voice → Prop) (c : Channel) : List (Nat × Message) → Prop
  | nil : Turns sounds c []
  | program {tick number ms} (rest : Turns sounds c ms) :
      Turns sounds c ((tick, .program c number) :: ms)
  | note {start v amount ms} (sounding : sounds start v) (channel : v.channel = c)
      (bend : v.stroke.bend = some amount) (rest : Turns sounds c ms) :
      Turns sounds c ((start, .bend c amount) ::
        (start, .noteOn c v.stroke.key v.stroke.velocity) ::
        (start + v.stroke.ticks, .noteOff c v.stroke.key) :: ms)

section Turns

variable {sounds : Nat → Voice → Prop} {ms' : List (Nat × Message)}

theorem Turns.append (h : Turns sounds c ms) (h' : Turns sounds c ms') :
    Turns sounds c (ms ++ ms') := by
  induction h with
  | nil => exact h'
  | program _ ih => exact .program ih
  | note sounding channel bend _ ih => exact .note sounding channel bend ih

theorem Turns.flatten {mss : List (List (Nat × Message))} (h : ∀ ms ∈ mss, Turns sounds c ms) :
    Turns sounds c mss.flatten := by
  induction mss with
  | nil => exact .nil
  | cons ms mss ih =>
    obtain ⟨hms, hmss⟩ := List.forall_mem_cons.mp h
    exact hms.append (ih hmss)

/-- At any moment the channel is free, or holds the key whose note-off comes next. -/
theorem Turns.held_eq_nil_or (h : Turns sounds c ms) : ∀ {before after},
    ms = before ++ after → held c before = [] ∨
      ∃ key tick later, held c before = [key] ∧ after = (tick, .noteOff c key) :: later := by
  induction h with
  | nil =>
    intro before after hms
    left
    rw [(List.append_eq_nil_iff.mp hms.symm).1]
    rfl
  | program _ ih =>
    -- A program change holds no key and frees none.
    intro before after hms
    rcases before with - | ⟨b, before⟩
    · exact .inl rfl
    · rw [List.cons_append, List.cons.injEq] at hms
      obtain ⟨rfl, hrest⟩ := hms
      have hturn := ih hrest
      exact hturn
  | @note start v amount ms _ _ _ _ ih =>
    intro before after hms
    have hon : Message.hold c [] (.noteOn c v.stroke.key v.stroke.velocity) = [v.stroke.key] :=
      if_pos rfl
    -- The split lies before the bend, between two of the three messages, or behind them.
    rcases before with - | ⟨b, - | ⟨n, - | ⟨f, before⟩⟩⟩
    · exact .inl rfl
    · rw [List.cons_append, List.cons.injEq] at hms
      obtain ⟨rfl, -⟩ := hms
      exact .inl rfl
    · simp only [List.cons_append, List.cons.injEq] at hms
      obtain ⟨rfl, rfl, hafter⟩ := hms
      exact .inr ⟨v.stroke.key, start + v.stroke.ticks, ms, hon, hafter.symm⟩
    · simp only [List.cons_append, List.cons.injEq] at hms
      obtain ⟨rfl, rfl, rfl, hrest⟩ := hms
      -- Behind its note-off the note has left no trace.
      have hoff : Message.hold c [v.stroke.key] (.noteOff c v.stroke.key) = [] := by
        rw [Message.hold, if_pos rfl, List.erase_cons_head]
      have hfree : held c ((start, .bend c amount) ::
          (start, .noteOn c v.stroke.key v.stroke.velocity) ::
          (start + v.stroke.ticks, .noteOff c v.stroke.key) :: before) = held c before := by
        show before.foldl _ (Message.hold c (Message.hold c [] _) _) = _
        rw [hon, hoff]
        rfl
      rw [hfree]
      exact ih hrest

/-- Around a note-on stand its bend and its note-off. -/
theorem Turns.of_noteOn (h : Turns sounds c ms) : ∀ {before start key velocity after},
    ms = before ++ (start, .noteOn c key velocity) :: after → ∃ v amount earlier later,
      sounds start v ∧ v.channel = c ∧ v.stroke.key = key ∧ v.stroke.velocity = velocity ∧
      v.stroke.bend = some amount ∧ before = earlier ++ [(start, .bend c amount)] ∧
      after = (start + v.stroke.ticks, .noteOff c key) :: later := by
  induction h with
  | nil =>
    intro before start key velocity after hms
    cases (List.append_eq_nil_iff.mp hms.symm).2
  | program _ ih =>
    intro before start key velocity after hms
    rcases before with - | ⟨b, before⟩
    · cases hms
    · rw [List.cons_append, List.cons.injEq] at hms
      obtain ⟨rfl, hrest⟩ := hms
      obtain ⟨v, amount, earlier, later, hv, hc, hkey, hvelocity, hbend, rfl, hafter⟩ := ih hrest
      exact ⟨v, amount, _ :: earlier, later, hv, hc, hkey, hvelocity, hbend, rfl, hafter⟩
  | @note start v amount ms sounding channel bend _ ih =>
    intro before start' key velocity after hms
    -- The note-on is the one of this note, or one of a later note.
    rcases before with - | ⟨b, - | ⟨n, - | ⟨f, before⟩⟩⟩
    · cases hms
    · simp only [List.cons_append, List.nil_append, List.cons.injEq, Prod.mk.injEq,
        Message.noteOn.injEq] at hms
      obtain ⟨rfl, ⟨rfl, -, rfl, rfl⟩, rfl⟩ := hms
      exact ⟨v, amount, [], ms, sounding, channel, rfl, rfl, bend, rfl, rfl⟩
    · cases hms
    · simp only [List.cons_append, List.cons.injEq] at hms
      obtain ⟨rfl, rfl, rfl, hrest⟩ := hms
      obtain ⟨w, amount', earlier, later, hw, hc, hkey, hvelocity, hbend, rfl, hafter⟩ := ih hrest
      exact ⟨w, amount', _ :: _ :: _ :: earlier, later, hw, hc, hkey, hvelocity, hbend, rfl,
        hafter⟩

end Turns

/-! ### The notes of a part take turns -/

/-- The voices of a gesture on a channel. -/
def Gesture.on (g : Gesture) (c : Channel) : Gesture :=
  { g with voices := g.voices.filter fun v => v.channel = c }

theorem onChannel_map (c : Channel) (tick : Nat) (messages : List Message) :
    onChannel c (messages.map (tick, ·))
      = (messages.filter fun m => m.channel? = some c).map (tick, ·) := by
  rw [onChannel, List.filter_map]
  rfl

theorem Gesture.onChannel_timed (g : Gesture) (c : Channel) :
    onChannel c g.timed = (g.on c).timed := by
  have hbends : g.bends.filter (fun m => m.channel? = some c) = (g.on c).bends := by
    rw [bends, bends, on, List.filter_filterMap, List.filterMap_filter]
    congr 1
    funext v
    cases v.stroke.bend <;> by_cases hv : v.channel = c <;> simp [Message.channel?, hv]
  have hons : g.ons.filter (fun m => m.channel? = some c) = (g.on c).ons := by
    rw [ons, ons, on, List.filter_map]
    congr 2
    funext v
    simp [Message.channel?]
  have hoffs : g.offs.filter (fun m => m.channel? = some c) = (g.on c).offs := by
    rw [offs, offs, on, List.filter_map]
    congr 2
    funext v
    simp [Message.channel?]
  rw [timed, onChannel_append, onChannel_map, onChannel_map, List.filter_append, hbends, hons, hoffs]
  rfl

/-- Of voices on different channels at most one is on a given channel. -/
theorem filter_channel_eq {voices : List Voice} (h : (voices.map (·.channel)).Nodup)
    (c : Channel) : voices.filter (fun v => v.channel = c) = [] ∨
      ∃ v ∈ voices, v.channel = c ∧ voices.filter (fun v => v.channel = c) = [v] := by
  induction voices with
  | nil => exact .inl rfl
  | cons v voices ih =>
    rw [List.map_cons, List.nodup_cons] at h
    by_cases hv : v.channel = c
    · right
      refine ⟨v, List.mem_cons_self, hv, ?_⟩
      -- A second one on the channel would repeat it.
      rw [List.filter_cons_of_pos (by simpa using hv), List.filter_eq_nil_iff.mpr]
      intro w hw hwc
      apply h.1
      rw [hv, ← of_decide_eq_true hwc]
      exact List.mem_map_of_mem hw
    · rw [List.filter_cons_of_neg (by simpa using hv)]
      rcases ih h.2 with hnil | ⟨w, hw, hwc, hfilter⟩
      · exact .inl hnil
      · exact .inr ⟨w, List.mem_cons_of_mem v hw, hwc, hfilter⟩

section Plays

variable {strike : Note → Except Fault Stroke} {sounds : Nat → Voice → Prop}
  {channels : List Channel}

theorem Gesture.turns {g : Gesture} (hchannels : (g.voices.map (·.channel)).Nodup)
    (hbend : ∀ v ∈ g.voices, ∃ amount, v.stroke.bend = some amount)
    (hticks : ∀ v ∈ g.voices, v.stroke.ticks = g.ticks)
    (hsounds : ∀ v ∈ g.voices, sounds g.start v) (c : Channel) :
    Turns sounds c (onChannel c g.timed) := by
  rw [Gesture.onChannel_timed]
  rcases filter_channel_eq hchannels c with hnil | ⟨v, hv, rfl, hfilter⟩
  · have hnone : (g.on c).timed = [] := by
      rw [timed, bends, ons, offs, on, hnil]
      rfl
    rw [hnone]
    exact .nil
  · obtain ⟨amount, hamount⟩ := hbend v hv
    have hone : (g.on v.channel).timed = [(g.start, .bend v.channel amount),
        (g.start, .noteOn v.channel v.stroke.key v.stroke.velocity),
        (g.start + v.stroke.ticks, .noteOff v.channel v.stroke.key)] := by
      rw [hticks v hv]
      simp [timed, bends, ons, offs, on, hfilter, hamount]
    rw [hone]
    exact .note (hsounds v hv) rfl hamount .nil

/-- The notes of events on channels that no two notes of a chord share take turns on each. -/
theorem Plays.turns {now : Nat} {events : List Event} {gestures : List Gesture}
    (h : Plays strike (fun _ => channels) now events gestures) (hchannels : channels.Nodup)
    (hbend : ∀ n s, strike n = .ok s → ∃ amount, s.bend = some amount)
    (hsounds : ∀ g ∈ gestures, ∀ v ∈ g.voices, sounds g.start v) (c : Channel) :
    Turns sounds c (onChannel c (gestures.flatMap Gesture.timed)) := by
  induction h with
  | finish => exact .nil
  | silent _ _ ih => exact ih hsounds
  | sound _ _ _ voiced struck ticks _ ih =>
    obtain ⟨hfirst, hlater⟩ := List.forall_mem_cons.mp hsounds
    rw [List.flatMap_cons, onChannel_append]
    -- Also where they are at one tick, a gesture is over before the next begins.
    apply Turns.append
    · apply Gesture.turns _ _ ticks hfirst
      · rw [voiced]
        exact hchannels.sublist (List.take_sublist _ _)
      · exact fun v hv => hbend v.note v.stroke (struck v hv)
    · exact ih hlater

theorem turns_programMessages (program : Option Nat) (tick : Nat) (c : Channel) :
    Turns sounds c (onChannel c ((programMessages program channels).map (tick, ·))) := by
  cases program with
  | none => exact .nil
  | some number =>
    induction channels with
    | nil => exact .nil
    | cons channel channels ih =>
      rw [programMessages, List.map_cons, List.map_cons]
      by_cases hchannel : channel = c
      · subst hchannel
        rw [onChannel_cons_of_eq rfl]
        exact .program ih
      · rw [onChannel_cons_of_ne (by simpa [Message.channel?] using hchannel)]
        exact ih

theorem Line.turns {l : Line} {events : List Event}
    (h : Plays strike (fun _ => l.channels) 0 events l.gestures) (hchannels : l.channels.Nodup)
    (hbend : ∀ n s, strike n = .ok s → ∃ amount, s.bend = some amount)
    (hsounds : ∀ g ∈ l.gestures, ∀ v ∈ g.voices, sounds g.start v) (c : Channel) :
    Turns sounds c (onChannel c l.timed) := by
  rw [Line.timed, onChannel_append]
  apply Turns.append
  · exact turns_programMessages l.program 0 c
  · exact h.turns hchannels hbend hsounds c

/-- A part is silent on other channels than its own. -/
theorem Line.silent {l : Line} {events : List Event}
    (h : Plays strike (fun _ => l.channels) 0 events l.gestures) {c : Channel}
    (hc : c ∉ l.channels) : Silent c l.timed := by
  intro m hm hchannel
  apply hc
  rw [Line.timed, List.mem_append] at hm
  rcases hm with hm | hm
  · obtain ⟨message, hmessage, rfl⟩ := List.mem_map.mp hm
    obtain ⟨number, -, channel, hmem, rfl⟩ := mem_programMessages hmessage
    rwa [← Option.some.inj hchannel]
  · obtain ⟨g, hg, hm⟩ := List.mem_flatMap.mp hm
    obtain ⟨v, hv, ⟨amount, -, rfl⟩ | rfl | rfl⟩ := Gesture.mem_timed hm
    all_goals
      rw [← Option.some.inj hchannel]
      obtain ⟨_, -, hmem⟩ := h.exists_mem_spread g hg v hv
      exact hmem

end Plays

/-! ### Files -/

/-- A note of a piece is heard from a tick on: as one of the voices of a gesture of a part, on
the channels that the file names for the part. -/
def Heard (options : Options) (piece : Piece) (f : File) (start : Nat) (v : Voice) : Prop :=
  ∃ (index : Nat) (p : Part) (channels : List Channel) (gestures : List Gesture),
    piece.parts[index]? = some p ∧
    f.channels[index]? = some channels ∧
    Plays (Stroke.bent options.f0 options.bendRange options.ticksPerBeat) (fun _ => channels) 0
      p.events gestures ∧
    ∃ g ∈ gestures, g.start = start ∧ v ∈ g.voices

/-- What holds on a channel of a stream that is merged from the tracks of a file. -/
structure Undisturbed (options : Options) (piece : Piece) (f : File) (c : Channel)
    (stream : List (Nat × Message)) : Prop where
  /-- At no moment more than one key is held. -/
  one_key : ∀ before after, stream = before ++ after → (held c before).length ≤ 1
  /-- A note-on is that of a note of the piece.  The last that came before it is the bend of the
  note, and the next that comes is its note-off, when the ticks of its duration are over. -/
  closed : ∀ before start key velocity after,
    stream = before ++ (start, .noteOn c key velocity) :: after →
    ∃ v amount earlier gap gap' later, Heard options piece f start v ∧ v.channel = c ∧
      v.stroke.key = key ∧ v.stroke.velocity = velocity ∧ v.stroke.bend = some amount ∧
      durationTicks options.ticksPerBeat v.note.duration = .ok v.stroke.ticks ∧
      before = earlier ++ (start, .bend c amount) :: gap ∧ Silent c gap ∧
      after = gap' ++ (start + v.stroke.ticks, .noteOff c key) :: later ∧ Silent c gap'
  /-- No bend comes while a key is held. -/
  bend_free : ∀ before tick amount after,
    stream = before ++ (tick, .bend c amount) :: after → held c before = []
  /-- Once all that comes on the channel is over, no key is held. -/
  released : ∀ before after, stream = before ++ after → Silent c after → held c before = []

theorem exists_split_of_onChannel_eq_cons {x : Nat × Message} {rest : List (Nat × Message)}
    (h : onChannel c ms = x :: rest) : ∃ gap later, ms = gap ++ x :: later ∧ Silent c gap := by
  obtain ⟨gap, later, hms, hgap, -, -⟩ := List.filter_eq_cons_iff.mp h
  refine ⟨gap, later, hms, ?_⟩
  intro m hm hchannel
  exact hgap m hm (decide_eq_true hchannel)

theorem exists_split_of_onChannel_eq_append {x : Nat × Message} {rest : List (Nat × Message)}
    (h : onChannel c ms = rest ++ [x]) : ∃ earlier gap, ms = earlier ++ x :: gap ∧ Silent c gap := by
  obtain ⟨first, second, rfl, -, hsecond⟩ := List.filter_eq_append_iff.mp h
  obtain ⟨front, gap, rfl, -, -, hgap⟩ := List.filter_eq_cons_iff.mp hsecond
  exact ⟨first ++ front, gap, (List.append_assoc ..).symm, onChannel_eq_nil_iff.mp hgap⟩

/-- What holds of a channel alone holds of it in the stream. -/
theorem Turns.undisturbed {options : Options} {piece : Piece} {f : File}
    (h : Turns (Heard options piece f) c (onChannel c ms)) : Undisturbed options piece f c ms := by
  have hsplit : ∀ {before after}, ms = before ++ after →
      onChannel c ms = onChannel c before ++ onChannel c after := by
    rintro before after rfl
    exact onChannel_append before after
  constructor
  case one_key =>
    intro before after hms
    rw [← held_onChannel]
    rcases h.held_eq_nil_or (hsplit hms) with hnil | ⟨key, -, -, hkey, -⟩
    · rw [hnil]
      exact Nat.zero_le 1
    · rw [hkey]
      exact Nat.le_refl 1
  case closed =>
    intro before start key velocity after hms
    -- On the channel alone bend and note-off are neighbours of the note-on; in the stream
    -- there is a gap on either side, in which the channel is silent.
    have hchannel := hsplit hms
    rw [onChannel_cons_of_eq rfl] at hchannel
    obtain ⟨v, amount, _, _, hheard, hc, hkey, hvelocity, hbend, hbefore, hafter⟩ :=
      h.of_noteOn hchannel
    obtain ⟨earlier, gap, hearlier, hgap⟩ := exists_split_of_onChannel_eq_append hbefore
    obtain ⟨gap', later, hlater, hgap'⟩ := exists_split_of_onChannel_eq_cons hafter
    have hduration : durationTicks options.ticksPerBeat v.note.duration = .ok v.stroke.ticks := by
      obtain ⟨_, _, _, _, -, -, hplays, g, hg, -, hv⟩ := hheard
      exact (Stroke.bent_eq_ok (hplays.struck g hg v hv)).1
    exact ⟨v, amount, earlier, gap, gap', later, hheard, hc, hkey, hvelocity, hbend, hduration,
      hearlier, hgap, hlater, hgap'⟩
  case bend_free =>
    intro before tick amount after hms
    rw [← held_onChannel]
    rcases h.held_eq_nil_or (hsplit hms) with hnil | ⟨key, off, later, -, hoff⟩
    · exact hnil
    · -- A note-off would come next, and not a bend.
      rw [onChannel_cons_of_eq rfl] at hoff
      cases hoff
  case released =>
    intro before after hms hafter
    rw [← held_onChannel]
    rcases h.held_eq_nil_or (hsplit hms) with hnil | ⟨key, off, later, -, hoff⟩
    · exact hnil
    · rw [onChannel_eq_nil_iff.mpr hafter] at hoff
      cases hoff

/-- The tracks of a file with bent notes: the tempo, and lines on channels of their own. -/
theorem exists_bent_lines {options : Options} {piece : Piece} {f : File}
    (htuning : options.tuning = .pitchBend) (h : File.ofPiece options piece = .ok f) :
    ∃ lines : List Line, f.tracks.map Track.timed = f.tempo.timed :: lines.map Line.timed ∧
      (lines.map (·.channels)).flatten.Nodup ∧
      ∀ l ∈ lines, ∃ (index : Nat) (p : Part), piece.parts[index]? = some p ∧
        f.channels[index]? = some l.channels ∧
        Plays (Stroke.bent options.f0 options.bendRange options.ticksPerBeat)
          (fun _ => l.channels) 0 p.events l.gestures := by
  obtain ⟨-, -, -, hparts⟩ := ofPiece_eq_ok h
  rcases allParts_eq_ok hparts with ⟨-, -, hbent⟩ | ⟨k, hscala, -⟩
  · obtain ⟨lines, hrenders, hlines, -, hfree⟩ := bentParts_eq_ok hbent
    refine ⟨lines, ?_, ?_, ?_⟩
    · rw [File.tracks, List.map_cons, hrenders.map_timed]
    · have hall : bendChannels.Nodup := by decide
      exact hall.sublist hfree.sublist
    · intro l hl
      obtain ⟨i, hi⟩ := List.mem_iff_getElem?.mp hl
      obtain ⟨p, hp, -, hplays⟩ := hlines.exists_part hi
      refine ⟨i, p, hp, ?_, hplays⟩
      rw [File.channels, hrenders.map_channels, List.getElem?_map, hi, Option.map_some]
  · rw [htuning] at hscala
    cases hscala

section Bent

variable {options : Options} {piece : Piece} {f : File}

theorem silent_tempo (h : File.ofPiece options piece = .ok f) (c : Channel) :
    Silent c f.tempo.timed := by
  obtain ⟨-, htempo, -, -⟩ := ofPiece_eq_ok h
  obtain ⟨microseconds, -, -, ht⟩ := tempoTrack_eq_ok htempo
  rw [ht]
  intro m hm
  rw [List.mem_singleton.mp hm]
  exact nofun

/-- On every channel the notes of a track take turns. -/
theorem turns_of_mem_tracks (htuning : options.tuning = .pitchBend)
    (h : File.ofPiece options piece = .ok f) (c : Channel) :
    ∀ ms ∈ f.tracks.map Track.timed, Turns (Heard options piece f) c (onChannel c ms) := by
  obtain ⟨lines, htimed, hdistinct, hplays⟩ := exists_bent_lines htuning h
  intro ms hms
  rw [htimed] at hms
  rcases List.mem_cons.mp hms with rfl | hline
  · rw [onChannel_eq_nil_iff.mpr (silent_tempo h c)]
    exact .nil
  · obtain ⟨l, hl, rfl⟩ := List.mem_map.mp hline
    obtain ⟨index, p, hp, hchannels, hplays⟩ := hplays l hl
    apply Line.turns hplays
    · exact (List.nodup_flatten.mp hdistinct).1 _ (List.mem_map_of_mem hl)
    · exact fun n s => Stroke.exists_bend_of_bent
    · exact fun g hg v hv =>
        ⟨index, p, l.channels, l.gestures, hp, hchannels, hplays, g, hg, rfl, hv⟩

/-- No channel belongs to two parts, so of any two tracks one is silent on it. -/
theorem pairwise_onChannel_tracks (htuning : options.tuning = .pitchBend)
    (h : File.ofPiece options piece = .ok f) (c : Channel) :
    ((f.tracks.map Track.timed).map (onChannel c)).Pairwise fun a b => a = [] ∨ b = [] := by
  obtain ⟨lines, htimed, hdistinct, hplays⟩ := exists_bent_lines htuning h
  have hdisjoint := (List.nodup_flatten.mp hdistinct).2
  rw [htimed, List.map_cons, List.pairwise_cons, List.map_map]
  constructor
  · exact fun _ _ => .inl (onChannel_eq_nil_iff.mpr (silent_tempo h c))
  · rw [List.pairwise_map] at hdisjoint ⊢
    apply hdisjoint.imp_of_mem
    intro l l' hl hl' hapart
    obtain ⟨_, _, -, -, hline⟩ := hplays l hl
    obtain ⟨_, _, -, -, hline'⟩ := hplays l' hl'
    by_cases hc : c ∈ l.channels
    · right
      exact onChannel_eq_nil_iff.mpr (Line.silent hline' (hapart hc))
    · left
      exact onChannel_eq_nil_iff.mpr (Line.silent hline hc)

/-- On every channel the notes of a file take turns, however its tracks are merged. -/
theorem turns_of_merge (htuning : options.tuning = .pitchBend)
    (h : File.ofPiece options piece = .ok f) {stream : List (Nat × Message)}
    (hmerge : Merge (f.tracks.map Track.timed) stream) (c : Channel) :
    Turns (Heard options piece f) c (onChannel c stream) := by
  -- Only one of the tracks sends on the channel, so there is nothing to merge.
  have hsent : onChannel c stream = ((f.tracks.map Track.timed).map (onChannel c)).flatten :=
    (hmerge.filter _).eq_flatten (pairwise_onChannel_tracks htuning h c)
  rw [hsent]
  apply Turns.flatten
  intro ms hms
  obtain ⟨track, htrack, rfl⟩ := List.mem_map.mp hms
  exact turns_of_mem_tracks htuning h c track htrack

/-- The messages of a track are written in the order of their ticks to begin with. -/
theorem map_byTick_tracks (h : File.ofPiece options piece = .ok f) :
    (f.tracks.map fun t => Track.byTick t.timed) = f.tracks.map Track.timed := by
  apply List.map_congr_left
  intro t ht
  exact (readable_of_ofPiece h t ht).spaced.byTick_eq

/-- Under pitch bend no sounding note is disturbed: on every channel, however the tracks of a
file are merged, each note has its bend just before its note-on and its note-off just behind it
in time, at most one key is held at any moment, and none while a bend comes or when a track is
over. -/
theorem undisturbed_of_ofPiece (htuning : options.tuning = .pitchBend)
    (h : File.ofPiece options piece = .ok f) :
    (∀ stream, Merge (f.tracks.map fun t => Track.byTick t.timed) stream →
      ∀ c, Undisturbed options piece f c stream) ∧
    ∀ t ∈ f.tracks, ∀ c, held c (Track.byTick t.timed) = [] := by
  constructor
  · intro stream hmerge c
    rw [map_byTick_tracks h] at hmerge
    exact (turns_of_merge htuning h hmerge c).undisturbed
  · intro t ht c
    rw [(readable_of_ofPiece h t ht).spaced.byTick_eq]
    have hturns := turns_of_mem_tracks htuning h c _ (List.mem_map_of_mem ht)
    exact hturns.undisturbed.released _ [] (List.append_nil _).symm nofun

theorem undisturbed_octave : ∃ f stream, bentFromMiddleC.tuning = .pitchBend ∧
    File.ofPiece bentFromMiddleC octaveAndRest = .ok f ∧
    Merge (f.tracks.map fun t => Track.byTick t.timed) stream ∧
    ∀ c, Undisturbed bentFromMiddleC octaveAndRest f c stream := by
  have hmade : (File.ofPiece bentFromMiddleC octaveAndRest).toOption.isSome = true := by
    decide +kernel
  cases h : File.ofPiece bentFromMiddleC octaveAndRest with
  | error fault =>
    rw [h] at hmade
    cases hmade
  | ok f =>
    have hmerge := Merge.flatten (f.tracks.map fun t => Track.byTick t.timed)
    exact ⟨f, _, rfl, rfl, hmerge, (undisturbed_of_ofPiece rfl h).1 _ hmerge⟩

end Bent

end JustIntonation.Midi
