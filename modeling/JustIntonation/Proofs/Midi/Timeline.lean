/-
JustIntonation/Proofs/Midi/Timeline.lean

Tracks of any steps keep every message at its tick.

Nothing is assumed here of where a track comes from: it is a list of waits
and messages in any order.  A message is due after all the waits before it
(`Track.timed_eq`).  A track is *paced* if the waits between two neighbouring
messages, and those before the first, add up to what a variable-length
quantity of four bytes can say; waits behind the last message do not count.
That is just what is needed (`paced_iff_spaced`): then no tick is taken from
a smaller one, and none is cut.

Programs and bends may be any numbers, as their bytes hold the low bits only
(`Message.bytes_cut`).

Main result: the body of a paced track is read back as its messages, in the
order of writing and each at its tick, with one end of track behind them
(`exists_kept_of_paced`).
-/
import JustIntonation.Proofs.Midi.Decoding

namespace JustIntonation.Midi

/-! ### Waits and messages -/

namespace Track

/-- The ticks of all waits together. -/
def waited : Track → Nat
  | [] => 0
  | .wait ticks :: rest => ticks + waited rest
  | .send _ :: rest => waited rest

/-- The messages in the order of writing. -/
def messages : Track → List Message
  | [] => []
  | .wait _ :: rest => messages rest
  | .send message :: rest => message :: messages rest

@[simp] theorem waited_append (s t : Track) : waited (s ++ t) = waited s + waited t := by
  induction s with
  | nil => exact (Nat.zero_add _).symm
  | cons step s ih => cases step <;> simp [waited, ih, Nat.add_assoc]

@[simp] theorem messages_append (s t : Track) : messages (s ++ t) = messages s ++ messages t := by
  induction s with
  | nil => rfl
  | cons step s ih => cases step <;> simp [messages, ih]

theorem map_snd_timedFrom (now : Nat) (t : Track) :
    (timedFrom now t).map Prod.snd = messages t := by
  induction t generalizing now with
  | nil => rfl
  | cons step t ih => cases step <;> simp [timedFrom, messages, ih]

theorem timedFrom_append (now : Nat) (s t : Track) :
    timedFrom now (s ++ t) = timedFrom now s ++ timedFrom (now + waited s) t := by
  induction s generalizing now with
  | nil => rfl
  | cons step s ih => cases step <;> simp [timedFrom, waited, ih, Nat.add_assoc]

/-- A message is due after the waits before it, and the messages before it stand before it. -/
theorem timed_eq (before : Track) (m : Message) (after : Track) :
    timed (before ++ .send m :: after)
      = timed before ++ (waited before, m) :: timedFrom (waited before) after := by
  rw [timed, timedFrom_append, Nat.zero_add]
  rfl

theorem getElem?_timed (before : Track) (m : Message) (after : Track) :
    (timed (before ++ .send m :: after))[(messages before).length]?
      = some (waited before, m) := by
  have hlength : (messages before).length = (timed before).length := by
    rw [timed, ← map_snd_timedFrom 0 before, List.length_map]
  rw [timed_eq, hlength, List.getElem?_append_right (Nat.le_refl _), Nat.sub_self]
  rfl

/-- The waits in front of a message, back to the message before it or to the beginning, add up
to no more than four bytes of a variable-length quantity can say. -/
def Paced (t : Track) : Prop :=
  ∀ (before gap : Track) (m : Message) (after : Track), t = before ++ gap ++ .send m :: after →
    gap.messages = [] → gap.waited ≤ maxVariableLength

end Track

open Track

/-! ### Paced tracks are spaced -/

/-- What is left of a paced track is spaced.  The waits in `lead` have gone by since the last
message, and the next one is due after them as well. -/
theorem spaced_of_paced {t : Track} : ∀ (lead : Track) (now : Nat), lead.messages = [] →
    Paced (lead ++ t) → Spaced now (timedFrom (now + lead.waited) t) := by
  induction t with
  | nil =>
    intro _ _ _ _
    trivial
  | cons step t ih =>
    intro lead now hlead h
    cases step with
    | wait ticks =>
      have hwaits : messages (lead ++ [.wait ticks]) = [] := by
        rw [messages_append, hlead]
        rfl
      have hrest := ih (lead ++ [.wait ticks]) now hwaits
        (by rwa [List.append_assoc, List.singleton_append])
      rw [waited_append, ← Nat.add_assoc] at hrest
      exact hrest
    | send m =>
      have hgap : lead.waited ≤ maxVariableLength := h [] lead m t rfl hlead
      have hlater : Paced t := by
        intro before gap m' after ht hmessages
        refine h (lead ++ .send m :: before) gap m' after ?_ hmessages
        rw [ht]
        simp
      exact ⟨Nat.le_add_right _ _, Nat.add_le_add_left hgap _, ih [] _ rfl hlater⟩

theorem Spaced.le_endTick {ms rest : List (Nat × Message)} {tick : Nat} {m : Message} :
    ∀ {last : Nat}, Spaced last (ms ++ (tick, m) :: rest) →
      tick ≤ endTick last ms + maxVariableLength := by
  induction ms with
  | nil =>
    intro last h
    exact h.2.1
  | cons x ms ih =>
    intro last h
    exact ih h.2.2

theorem endTick_timedFrom_le {t : Track} : ∀ {last now : Nat}, last ≤ now →
    endTick last (timedFrom now t) ≤ now + waited t := by
  induction t with
  | nil =>
    intro last now h
    exact h
  | cons step t ih =>
    intro last now h
    cases step with
    | wait ticks =>
      rw [timedFrom, waited, ← Nat.add_assoc]
      exact ih (Nat.le_add_right_of_le h)
    | send m => exact ih (Nat.le_refl now)

theorem paced_iff_spaced {t : Track} : Paced t ↔ Spaced 0 t.timed := by
  constructor
  · exact spaced_of_paced [] 0 rfl
  · intro h before gap m after ht hgap
    subst ht
    -- The message before the gap is sent no later than all the waits before it are over.
    have hsilent : timedFrom (waited before) gap = [] := by
      rw [← List.map_eq_nil_iff, map_snd_timedFrom, hgap]
    rw [timed_eq, timed, timedFrom_append, Nat.zero_add, hsilent, List.append_nil,
      waited_append] at h
    have hdue := h.le_endTick
    have hlast := endTick_timedFrom_le (t := before) (Nat.le_refl 0)
    omega

/-! ### Cut numbers -/

/-- What the bytes of a message hold of it: seven bits of a program, fourteen of a bend. -/
def Message.cut : Message → Message
  | .program channel number => .program channel (number % 128)
  | .bend channel amount => .bend channel (amount % (maxBend + 1))
  | m => m

/-- Keys and velocities are data bytes, and a tempo has 24 bits. -/
def Message.Clean : Message → Prop
  | .tempo microseconds => microseconds < 2 ^ 24
  | .program _ _ => True
  | .bend _ _ => True
  | .noteOn _ key velocity => key < 0x80 ∧ velocity < 0x80
  | .noteOff _ key => key < 0x80

theorem Message.bytes_cut (m : Message) : m.cut.bytes = m.bytes := by
  cases m with
  | program channel number => simp [cut, bytes]
  | bend channel amount =>
    have hlow : amount % (maxBend + 1) % 128 = amount % 128 := by
      rw [maxBend]
      omega
    have hhigh : amount % (maxBend + 1) / 128 % 128 = amount / 128 % 128 := by
      rw [maxBend]
      omega
    rw [cut, bytes, bytes, fourteenBits, fourteenBits, hlow, hhigh]
  | tempo | noteOn | noteOff => rfl

/-- Nothing is cut off numbers that fit. -/
theorem Message.cut_eq_self {m : Message} (h : m.Fits) : m.cut = m := by
  cases m with
  | program channel number => rw [cut, Nat.mod_eq_of_lt h]
  | bend channel amount => rw [cut, Nat.mod_eq_of_lt (Nat.lt_succ_of_le h)]
  | tempo | noteOn | noteOff => rfl

theorem Message.Clean.fits_cut {m : Message} (h : m.Clean) : m.cut.Fits := by
  cases m with
  | tempo microseconds => exact Nat.le_of_lt_succ h
  | program channel number => exact Nat.mod_lt number (Nat.succ_pos 127)
  | bend channel amount => exact Nat.le_of_lt_succ (Nat.mod_lt amount (Nat.succ_pos maxBend))
  | noteOn | noteOff => exact h

/-- The messages that the bytes hold, at their ticks. -/
def cutAll (ms : List (Nat × Message)) : List (Nat × Message) := ms.map fun m => (m.1, m.2.cut)

theorem encodeFrom_cutAll (last : Nat) (ms : List (Nat × Message)) :
    encodeFrom last (cutAll ms) = encodeFrom last ms := by
  induction ms generalizing last with
  | nil => rfl
  | cons x ms ih =>
    rw [cutAll, List.map_cons, encodeFrom, encodeFrom, Message.bytes_cut]
    exact congrArg _ (ih x.1)

theorem spaced_cutAll {ms : List (Nat × Message)} : ∀ {last : Nat}, Spaced last ms →
    Spaced last (cutAll ms) := by
  induction ms with
  | nil => exact id
  | cons x ms ih =>
    intro last h
    exact ⟨h.1, h.2.1, ih h.2.2⟩

theorem endTick_cutAll (last : Nat) (ms : List (Nat × Message)) :
    endTick last (cutAll ms) = endTick last ms := by
  induction ms generalizing last with
  | nil => rfl
  | cons x ms ih => exact ih x.1

/-! ### Tracks, read back -/

/-- The events that were read keep the messages of a track at their ticks. -/
structure Kept (t : Track) (events : List (Nat × TrackEvent)) : Prop where
  /-- Messages are recorded in the order of writing. -/
  recorded : t.timed.map Prod.snd = t.messages
  /-- A message is recorded at the sum of the waits before it. -/
  tick : ∀ (before : Track) (m : Message) (after : Track), t = before ++ .send m :: after →
    t.timed[before.messages.length]? = some (before.waited, m)
  ascending : t.timed.Pairwise fun a b => a.1 ≤ b.1
  /-- Sorting changes nothing. -/
  order : byTick t.timed = t.timed
  /-- No tick is taken from a smaller one, and no difference is too large for four bytes. -/
  spaced : Spaced 0 (byTick t.timed)
  /-- Every message is read back at its tick, with one end of track behind them all. -/
  messages : absolute 0 events
    = t.timed.map (fun m => (m.1, m.2.cut.event)) ++ [(endTick 0 t.timed, .endOfTrack)]
  /-- What fits is read back as it was written. -/
  uncut : ∀ m ∈ t.messages, m.Fits → m.cut = m

/-- The body of a paced track holds all its messages, each at its tick, and one end of track. -/
theorem exists_kept_of_paced {t : Track} (hpaced : t.Paced) (hclean : ∀ m ∈ t.messages, m.Clean) :
    ∃ events, Reader.trackEvents none t.body = some events ∧ Kept t events := by
  have hspaced := paced_iff_spaced.mp hpaced
  have horder := hspaced.byTick_eq
  have hcut := spaced_cutAll hspaced
  have hfits : ∀ m ∈ cutAll t.timed, m.2.Fits := by
    intro m hm
    obtain ⟨recorded, hrecorded, rfl⟩ := List.mem_map.mp hm
    have hmessage : recorded.2 ∈ t.messages := by
      rw [← map_snd_timedFrom 0 t]
      exact List.mem_map_of_mem hrecorded
    exact (hclean recorded.2 hmessage).fits_cut
  -- The bytes are those of the messages that are cut, and these are read back as they are.
  have hread := trackEvents_encodeFrom none hcut hfits
  rw [encodeFrom_cutAll] at hread
  refine ⟨deltas 0 (cutAll t.timed), ?_, ?_⟩
  · rw [Track.body, horder, hread]
  constructor
  case recorded => exact map_snd_timedFrom 0 t
  case tick =>
    rintro before m after rfl
    exact getElem?_timed before m after
  case ascending => exact hspaced.pairwise
  case order => exact horder
  case spaced => rwa [horder]
  case messages =>
    rw [absolute_deltas hcut, endTick_cutAll, cutAll, List.map_map]
    rfl
  case uncut => exact fun m _ hm => Message.cut_eq_self hm

/-- Two notes released together after a wait in two halves.  The pause before them is as long as
it can be, that behind them longer, and program and bend have bits too many. -/
def longPause : Track :=
  [.send (.tempo 500000), .send (.program 1 200), .wait 0x0FFFFFFF, .send (.bend 1 0x7000),
    .send (.noteOn 1 60 64), .send (.noteOn 2 64 64), .wait 480, .wait 480, .send (.noteOff 1 60),
    .send (.noteOff 2 64), .wait 0xFFFFFFFF]

theorem exists_kept_longPause : longPause.Paced ∧ (∀ m ∈ longPause.messages, m.Clean) ∧
    ∃ events, Reader.trackEvents none longPause.body = some events ∧ Kept longPause events := by
  have hpaced : longPause.Paced := by
    rw [paced_iff_spaced]
    simp [longPause, timed, timedFrom, Spaced, maxVariableLength]
  have hclean : ∀ m ∈ longPause.messages, m.Clean := by
    simp [longPause, messages, Message.Clean]
  exact ⟨hpaced, hclean, exists_kept_of_paced hpaced hclean⟩

end JustIntonation.Midi
