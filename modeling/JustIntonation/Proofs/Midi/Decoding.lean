/-
JustIntonation/Proofs/Midi/Decoding.lean

What a reader of Standard MIDI Files finds in a file that was written here.

Each kind of number, message and chunk is read back as it was written, with
whatever follows left alone (`run_quantity`, `run_channelEvent`,
`run_chunkBody`).  A track can be read back if its messages hold numbers that
fit (`Message.Fits`) and no two neighbours lie further apart than a
variable-length quantity of four bytes can say (`Spaced`); then the reader
finds them all, each at its tick, and one end of track
(`trackEvents_encodeFrom`, `absolute_deltas`).

Main result: a file of such tracks is read back to the last byte
(`read_bytes`).
-/
import JustIntonation.Proofs.Midi.Performance
import JustIntonation.Proofs.Midi.Reader
import Mathlib.Tactic.Ring

namespace JustIntonation.Midi

open Reader

variable {α : Type}

/-! ### Numbers -/

theorem toNat_ofNat_of_lt {n : Nat} (h : n < 256) : (UInt8.ofNat n).toNat = n := by
  rw [UInt8.toNat_ofNat']
  omega

@[simp] theorem run_byte (b : UInt8) (rest : List UInt8) :
    byte.run (b :: rest) = some (b.toNat, rest) := rfl

theorem div_lt_pow {base count n : Nat} (h : n < base ^ (count + 1)) : n / base < base ^ count :=
  Nat.div_lt_of_lt_mul (by rwa [← pow_succ'])

theorem run_dataByte {n : Nat} (h : n < 128) (rest : List UInt8) :
    dataByte.run (UInt8.ofNat n :: rest) = some (n, rest) := by
  have hn : (UInt8.ofNat n).toNat = n := toNat_ofNat_of_lt (Nat.lt_trans h (by decide))
  rw [dataByte, StateT.run_bind, run_byte, hn, Option.bind_eq_bind, Option.bind_some, if_pos h]
  rfl

/-- Two data bytes, and what is made of them. -/
theorem run_dataBytes {m n : Nat} (hm : m < 128) (hn : n < 128) (f : Nat → Nat → α)
    (rest : List UInt8) :
    (do return f (← dataByte) (← dataByte) : Reader α).run
      (UInt8.ofNat m :: UInt8.ofNat n :: rest) = some (f m n, rest) := by
  rw [StateT.run_bind, run_dataByte hm, Option.bind_eq_bind, Option.bind_some, StateT.run_bind,
    run_dataByte hn]
  rfl

theorem run_take {count : Nat} {bytes : List UInt8} (h : bytes.length = count)
    (rest : List UInt8) : (take count).run (bytes ++ rest) = some (bytes, rest) := by
  subst h
  simp [take, StateT.run]

theorem length_bigEndian (count n : Nat) : (bigEndian count n).length = count := by
  induction count generalizing n with
  | zero => rfl
  | succ count ih => simp [bigEndian, ih]

theorem numberOf_append (bytes : List UInt8) (b : UInt8) :
    numberOf (bytes ++ [b]) = 256 * numberOf bytes + b.toNat := by
  simp [numberOf]

/-- A number of fixed width, read back. -/
theorem numberOf_bigEndian {count n : Nat} (h : n < 256 ^ count) :
    numberOf (bigEndian count n) = n := by
  induction count generalizing n with
  | zero =>
    have hn : n = 0 := by simpa using h
    simp [bigEndian, numberOf, hn]
  | succ count ih =>
    -- The last byte is the remainder, and the bytes before it are the quotient's.
    have hmod : n % 256 < 256 := Nat.mod_lt n (Nat.succ_pos 255)
    rw [bigEndian, numberOf_append, ih (div_lt_pow h), toNat_ofNat_of_lt hmod]
    exact Nat.div_add_mod n 256

theorem run_number {count n : Nat} (h : n < 256 ^ count) (rest : List UInt8) :
    (number count).run (bigEndian count n ++ rest) = some (n, rest) := by
  rw [number, StateT.run_map, run_take (length_bigEndian count n)]
  simp [numberOf_bigEndian h]

/-- A byte of a quantity with its top bit set, read back. -/
theorem run_quantityFrom_leading {group : Nat} (h : group < 128) (n limit : Nat)
    (rest : List UInt8) :
    (quantityFrom n (limit + 1)).run (UInt8.ofNat (128 + group) :: rest)
      = (quantityFrom (128 * n + group) limit).run rest := by
  have hbyte : (UInt8.ofNat (128 + group)).toNat = 128 + group := toNat_ofNat_of_lt (by omega)
  have htop : ¬ 128 + group < 128 := by omega
  rw [quantityFrom, StateT.run_bind, run_byte, hbyte, Option.bind_eq_bind, Option.bind_some,
    if_neg htop, Nat.add_sub_cancel_left]

/-- The last byte of a quantity, read back. -/
theorem run_quantityFrom_last {group : Nat} (h : group < 128) (n limit : Nat)
    (rest : List UInt8) :
    (quantityFrom n (limit + 1)).run (UInt8.ofNat group :: rest)
      = some (128 * n + group, rest) := by
  have hbyte : (UInt8.ofNat group).toNat = group := toNat_ofNat_of_lt (by omega)
  rw [quantityFrom, StateT.run_bind, run_byte, hbyte, Option.bind_eq_bind, Option.bind_some,
    if_pos h]
  rfl

theorem leadingGroups_append (n : Nat) (last rest : List UInt8) :
    leadingGroups n last ++ rest = leadingGroups n (last ++ rest) := by
  induction n using Nat.strongRecOn generalizing last with
  | ind n ih =>
    by_cases hn : n = 0
    · rw [leadingGroups, if_pos hn, leadingGroups, if_pos hn]
    · rw [leadingGroups, if_neg hn, leadingGroups.eq_def n (last ++ rest), if_neg hn,
        ih (n / 128) (by omega), List.cons_append]

theorem length_variableLength_pos (n : Nat) : 0 < (variableLength n).length := by
  rw [variableLength, ← List.nil_append [UInt8.ofNat (n % 128)], ← leadingGroups_append]
  simp

/-- Reading the leading bytes of a quantity uses up no more bytes than it has groups of seven
bits. -/
theorem run_leadingGroups (groups : Nat) : ∀ {n : Nat} (spare : Nat) (last : List UInt8),
    n < 128 ^ groups → ∃ limit, spare ≤ limit ∧
      (quantityFrom 0 (groups + spare)).run (leadingGroups n last)
        = (quantityFrom n limit).run last := by
  induction groups with
  | zero =>
    intro n spare last h
    have hn : n = 0 := by simpa using h
    subst hn
    exact ⟨0 + spare, by omega, by rw [leadingGroups, if_pos rfl]⟩
  | succ groups ih =>
    intro n spare last h
    by_cases hn : n = 0
    · subst hn
      exact ⟨groups + 1 + spare, by omega, by rw [leadingGroups, if_pos rfl]⟩
    · -- The bytes before the last one leave a byte to spare, which the last one takes.
      obtain ⟨limit, hlimit, hrun⟩ :=
        ih (spare + 1) (UInt8.ofNat (128 + n % 128) :: last) (div_lt_pow h)
      obtain ⟨limit, rfl⟩ : ∃ k, limit = k + 1 := ⟨limit - 1, by omega⟩
      have hgroup : n % 128 < 128 := Nat.mod_lt n (Nat.succ_pos 127)
      refine ⟨limit, by omega, ?_⟩
      rw [leadingGroups, if_neg hn, show groups + 1 + spare = groups + (spare + 1) by omega, hrun,
        run_quantityFrom_leading hgroup, Nat.div_add_mod]

/-- A variable-length quantity of at most four bytes, read back. -/
theorem run_quantity {n : Nat} (h : n ≤ maxVariableLength) (rest : List UInt8) :
    quantity.run (variableLength n ++ rest) = some (n, rest) := by
  -- Three leading bytes are enough, so one of the four is left for the last.
  have hleading : n / 128 < 128 ^ 3 := by
    simp only [maxVariableLength] at h
    omega
  have hgroup : n % 128 < 128 := Nat.mod_lt n (Nat.succ_pos 127)
  obtain ⟨limit, hlimit, hrun⟩ :=
    run_leadingGroups 3 1 ([UInt8.ofNat (n % 128)] ++ rest) hleading
  obtain ⟨limit, rfl⟩ : ∃ k, limit = k + 1 := ⟨limit - 1, by omega⟩
  rw [variableLength, leadingGroups_append, quantity, hrun, List.singleton_append,
    run_quantityFrom_last hgroup, Nat.div_add_mod]

theorem length_leadingGroups_le {groups : Nat} : ∀ {n : Nat} (last : List UInt8),
    n < 128 ^ groups → (leadingGroups n last).length ≤ groups + last.length := by
  induction groups with
  | zero =>
    intro n last h
    have hn : n = 0 := by simpa using h
    rw [leadingGroups, if_pos hn]
    exact Nat.le_add_left _ _
  | succ groups ih =>
    intro n last h
    rw [leadingGroups]
    split_ifs
    · exact Nat.le_add_left _ _
    · have hlength := ih (UInt8.ofNat (128 + n % 128) :: last) (div_lt_pow h)
      rw [List.length_cons] at hlength
      omega

/-! ### Messages -/

/-- The numbers of a message fit into its bytes. -/
def Message.Fits : Message → Prop
  | .tempo microseconds => microseconds ≤ 0xFFFFFF
  | .program _ number => number < 128
  | .bend _ amount => amount ≤ maxBend
  | .noteOn _ key velocity => key < 128 ∧ velocity < 128
  | .noteOff _ key => key < 128

/-- What a reader takes a message for. -/
def Message.event : Message → TrackEvent
  | .tempo microseconds => .tempo microseconds
  | .program channel number => .programChange channel number
  | .bend channel amount => .pitchBend channel amount
  | .noteOn channel key velocity => .noteOn channel key velocity
  | .noteOff channel key => .noteOff channel key 0

theorem toNat_status {kind : Nat} (h : kind < 16) (channel : Channel) :
    (status kind channel).toNat = 16 * kind + channel.val := by
  rw [status, toNat_ofNat_of_lt]
  omega

/-- The status that runs on behind a message. -/
def Message.running : Message → Option Nat
  | .tempo _ => none
  | .program channel _ => some (16 * 0xC + channel.val)
  | .bend channel _ => some (16 * 0xE + channel.val)
  | .noteOn channel _ _ => some (16 * 0x9 + channel.val)
  | .noteOff channel _ => some (16 * 0x8 + channel.val)

/-- A message on a channel, behind its status byte. -/
theorem run_event_status {kind : Nat} (hlow : 8 ≤ kind) (hhigh : kind < 15) (channel : Channel)
    (running : Option Nat) {data rest : List UInt8} {e : TrackEvent}
    (h : (channelEvent kind channel).run data = some (e, rest)) :
    (event running).run (status kind channel :: data)
      = some ((e, some (16 * kind + channel.val)), rest) := by
  -- The status byte lies above the data bytes and below those of system messages.
  have hstatus := toNat_status (by omega : kind < 16) channel
  have hnotData : ¬ 16 * kind + channel.val < 0x80 := by omega
  have hvoice : 16 * kind + channel.val < 0xF0 := by omega
  have hkind : (16 * kind + channel.val) / 16 = kind := by omega
  have hchannel : Channel.ofNat (16 * kind + channel.val) = channel := by
    ext
    show (16 * kind + channel.val) % 16 = channel.val
    omega
  have hevent : (channelEventOf (16 * kind + channel.val)).run data = some (e, rest) := by
    rw [channelEventOf, hkind, hchannel, h]
  simp [event, hstatus, hnotData, hvoice, hevent]

theorem run_tempo {microseconds : Nat} (h : microseconds ≤ 0xFFFFFF) (rest : List UInt8) :
    metaEvent.run (0x51 :: (variableLength 3 ++ bigEndian 3 microseconds ++ rest))
      = some (.tempo microseconds, rest) := by
  have hkind : dataByte.run (0x51 :: (variableLength 3 ++ (bigEndian 3 microseconds ++ rest)))
      = some (0x51, variableLength 3 ++ (bigEndian 3 microseconds ++ rest)) :=
    run_dataByte (n := 0x51) (by decide) _
  have hlength := run_quantity (n := 3) (by decide) (bigEndian 3 microseconds ++ rest)
  have hdata := run_take (length_bigEndian 3 microseconds) rest
  have hvalue : numberOf (bigEndian 3 microseconds) = microseconds :=
    numberOf_bigEndian (by omega)
  rw [metaEvent, List.append_assoc]
  simp only [StateT.run_bind, hkind, hlength, hdata, Option.bind_eq_bind, Option.bind_some]
  simp only [bigEndian, List.nil_append, List.cons_append] at hvalue ⊢
  rw [hvalue]
  rfl

/-- Every message that fits is read back, with the bytes behind it left alone. -/
theorem run_event {m : Message} (h : m.Fits) (running : Option Nat) (rest : List UInt8) :
    (event running).run (m.bytes ++ rest) = some ((m.event, m.running), rest) := by
  cases m with
  | tempo microseconds =>
    -- A meta event, which has no channel and ends the running status.
    have hmeta := run_tempo h rest
    simp [event, Message.bytes, Message.event, Message.running] at hmeta ⊢
    rw [hmeta]
  | program channel number =>
    have hnumber : number % 128 = number := Nat.mod_eq_of_lt h
    show (event running).run (status 0xC channel :: UInt8.ofNat (number % 128) :: rest) = _
    apply run_event_status (by decide) (by decide)
    rw [hnumber, channelEvent, StateT.run_bind, run_dataByte h]
    rfl
  | bend channel amount =>
    have hlow : amount % 128 < 128 := Nat.mod_lt amount (Nat.succ_pos 127)
    have hhigh : amount / 128 % 128 < 128 := Nat.mod_lt (amount / 128) (Nat.succ_pos 127)
    -- Fourteen bits: nothing is lost to the two masks.
    have hamount : amount % 128 + 128 * (amount / 128 % 128) = amount := by
      simp only [Message.Fits, maxBend] at h
      omega
    apply run_event_status (by decide) (by decide)
    have hdata := run_dataBytes hlow hhigh
      (fun low high => TrackEvent.pitchBend channel (low + 128 * high)) rest
    rw [hamount] at hdata
    exact hdata
  | noteOn channel key velocity =>
    apply run_event_status (by decide) (by decide)
    exact run_dataBytes h.1 h.2 (TrackEvent.noteOn channel) rest
  | noteOff channel key =>
    -- The velocity of the release is written as 0.
    apply run_event_status (by decide) (by decide)
    exact run_dataBytes (n := 0) h (by decide) (TrackEvent.noteOff channel) rest

theorem run_timedEvent {n : Nat} {m : Message} (hn : n ≤ maxVariableLength) (hm : m.Fits)
    (running : Option Nat) (rest : List UInt8) :
    (timedEvent running).run (variableLength n ++ m.bytes ++ rest)
      = some ((n, m.event, m.running), rest) := by
  rw [timedEvent, StateT.run_bind, List.append_assoc, run_quantity hn, Option.bind_eq_bind,
    Option.bind_some, StateT.run_bind, run_event hm]
  rfl

theorem event_ne_endOfTrack (m : Message) : m.event ≠ .endOfTrack := by
  cases m <;> simp [Message.event]

/-! ### Tracks -/

/-- Messages in the order of their ticks, from tick `last` on, with no two neighbours further
apart than a quantity of four bytes can say. -/
def Spaced (last : Nat) : List (Nat × Message) → Prop
  | [] => True
  | (tick, _) :: rest => last ≤ tick ∧ tick ≤ last + maxVariableLength ∧ Spaced tick rest

/-- The tick of the last message, or `last` if there is none. -/
def endTick (last : Nat) : List (Nat × Message) → Nat
  | [] => last
  | (tick, _) :: rest => endTick tick rest

/-- What a reader finds: the messages with their delta times, and the end of the track. -/
def deltas (last : Nat) : List (Nat × Message) → List (Nat × TrackEvent)
  | [] => [(0, .endOfTrack)]
  | (tick, message) :: rest => (tick - last, message.event) :: deltas tick rest

theorem Spaced.le {ms : List (Nat × Message)} : ∀ {last : Nat}, Spaced last ms →
    ∀ m ∈ ms, last ≤ m.1 := by
  induction ms with
  | nil => simp
  | cons x ms ih =>
    intro last h m hm
    obtain rfl | hm := List.mem_cons.mp hm
    · exact h.1
    · exact Nat.le_trans h.1 (ih h.2.2 m hm)

theorem Spaced.pairwise {ms : List (Nat × Message)} : ∀ {last : Nat}, Spaced last ms →
    ms.Pairwise fun a b => a.1 ≤ b.1 := by
  induction ms with
  | nil => simp
  | cons x ms ih =>
    intro last h
    exact List.pairwise_cons.mpr ⟨fun m hm => h.2.2.le m hm, ih h.2.2⟩

/-- Sorting by ticks leaves messages as they are that are written in the order of their
ticks. -/
theorem Spaced.byTick_eq {ms : List (Nat × Message)} {last : Nat} (h : Spaced last ms) :
    Track.byTick ms = ms := by
  apply List.mergeSort_of_pairwise
  exact h.pairwise.imp fun hab => decide_eq_true hab

theorem deltas_le {ms : List (Nat × Message)} : ∀ {last : Nat}, Spaced last ms →
    ∀ d ∈ deltas last ms, d.1 ≤ maxVariableLength := by
  induction ms with
  | nil => simp [deltas]
  | cons x ms ih =>
    intro last h d hd
    obtain rfl | hd := List.mem_cons.mp hd
    · exact Nat.sub_le_iff_le_add'.mpr h.2.1
    · exact ih h.2.2 d hd

/-- Adding up the delta times gives every message the tick that it was written at. -/
theorem absolute_deltas {ms : List (Nat × Message)} : ∀ {last : Nat}, Spaced last ms →
    absolute last (deltas last ms)
      = ms.map (fun m => (m.1, m.2.event)) ++ [(endTick last ms, .endOfTrack)] := by
  induction ms with
  | nil => simp [deltas, absolute, endTick]
  | cons x ms ih =>
    intro last h
    have htick : last + (x.1 - last) = x.1 := Nat.add_sub_cancel' h.1
    rw [deltas, absolute, htick, ih h.2.2]
    rfl

/-- A track that fits and is spaced, read back. -/
theorem trackEvents_encodeFrom {ms : List (Nat × Message)} : ∀ {last : Nat}
    (running : Option Nat), Spaced last ms → (∀ m ∈ ms, m.2.Fits) →
    trackEvents running (Track.encodeFrom last ms ++ Track.endOfTrack) = some (deltas last ms) := by
  induction ms with
  | nil =>
    intro last running _ _
    have hrun : (timedEvent running).run Track.endOfTrack
        = some ((0, .endOfTrack, none), []) := rfl
    rw [Track.encodeFrom, List.nil_append, trackEvents, hrun]
    simp [deltas]
  | cons x ms ih =>
    obtain ⟨tick, m⟩ := x
    intro last running h hfits
    obtain ⟨hle, hnear, hrest⟩ := h
    have hdelta : tick - last ≤ maxVariableLength := Nat.sub_le_iff_le_add'.mpr hnear
    -- The delta is short, so it is not cut to 32 bits.
    have hmod : (tick - last) % 0x100000000 = tick - last := by
      apply Nat.mod_eq_of_lt
      exact Nat.lt_of_le_of_lt hdelta (by decide)
    have hrun := run_timedEvent hdelta (hfits (tick, m) List.mem_cons_self) running
      (Track.encodeFrom tick ms ++ Track.endOfTrack)
    have hlater := ih m.running hrest fun m hm => hfits m (List.mem_cons_of_mem _ hm)
    have hshorter := length_variableLength_pos (tick - last)
    -- What the reader goes on with is shorter, so it does go on.
    rw [Track.encodeFrom, hmod, List.append_assoc (variableLength _ ++ m.bytes), trackEvents, hrun]
    simp only [event_ne_endOfTrack, if_false, hlater, deltas, Option.map_some]
    rw [if_pos]
    simp only [List.length_append]
    omega

theorem Message.length_bytes_le (m : Message) : m.bytes.length ≤ 6 := by
  cases m with
  | tempo microseconds =>
    have hthree : (variableLength 3).length = 1 := by simp [variableLength, leadingGroups]
    simp [Message.bytes, hthree, length_bigEndian]
  | program | bend | noteOn | noteOff => simp [Message.bytes, fourteenBits]

theorem length_encodeFrom_le (ms : List (Nat × Message)) (last : Nat) :
    (Track.encodeFrom last ms).length ≤ 11 * ms.length := by
  induction ms generalizing last with
  | nil => exact Nat.zero_le _
  | cons x ms ih =>
    obtain ⟨tick, m⟩ := x
    -- Five bytes at most for the delta, and six for the message.
    have hmod : (tick - last) % 0x100000000 < 0x100000000 := Nat.mod_lt _ (Nat.succ_pos _)
    have hleading : (tick - last) % 0x100000000 / 128 < 128 ^ 4 := by omega
    have hdelta := length_leadingGroups_le [UInt8.ofNat ((tick - last) % 0x100000000 % 128)] hleading
    have hmessage := m.length_bytes_le
    have hrest := ih tick
    rw [Track.encodeFrom, variableLength, List.length_append, List.length_append, List.length_cons]
    rw [List.length_singleton] at hdelta
    omega

/-- A track of a few messages is short. -/
theorem Track.length_body_le (t : Track) : t.body.length ≤ 11 * t.timed.length + 4 := by
  have hmessages := length_encodeFrom_le (byTick t.timed) 0
  have hcount : (byTick t.timed).length = t.timed.length := List.length_mergeSort _
  rw [hcount] at hmessages
  rw [Track.body, List.length_append, show endOfTrack.length = 4 from rfl]
  omega

/-! ### Chunks and files -/

/-- A chunk whose length fits into four bytes, read back. -/
theorem run_chunkBody {name : String} (hname : name.toUTF8.toList.length = 4) {body : List UInt8}
    (hbody : body.length < 2 ^ 32) (rest : List UInt8) :
    (chunkBody name).run (chunk name body ++ rest) = some (body, rest) := by
  have hcount : body.length < 256 ^ 4 := by omega
  have hlength := run_number hcount (body ++ rest)
  rw [chunk, List.append_assoc, List.append_assoc, chunkBody, StateT.run_bind, run_take hname,
    Option.bind_eq_bind, Option.bind_some, if_pos rfl, StateT.run_bind, hlength,
    Option.bind_eq_bind, Option.bind_some, run_take rfl]

/-- A track whose body a reader gets back as it was written. -/
structure Readable (t : Track) : Prop where
  spaced : Spaced 0 t.timed
  fits : ∀ m ∈ t.timed, m.2.Fits

/-- The body of a track holds all its messages and one end of track. -/
theorem Readable.trackEvents_body {t : Track} (h : Readable t) :
    trackEvents none t.body = some (deltas 0 t.timed) := by
  rw [Track.body, h.spaced.byTick_eq]
  exact trackEvents_encodeFrom none h.spaced h.fits

theorem run_track {t : Track} (h : Readable t) (hshort : t.body.length < 2 ^ 32)
    (rest : List UInt8) :
    track.run (t.bytes ++ rest) = some (deltas 0 t.timed, rest) := by
  have hname : "MTrk".toUTF8.toList.length = 4 := by decide +kernel
  rw [track, StateT.run_bind, Track.bytes, run_chunkBody hname hshort, Option.bind_eq_bind,
    Option.bind_some, h.trackEvents_body]
  rfl

theorem run_tracks {ts : List Track} (h : ∀ t ∈ ts, Readable t)
    (hshort : ∀ t ∈ ts, t.body.length < 2 ^ 32) (rest : List UInt8) :
    (tracks ts.length).run (ts.flatMap Track.bytes ++ rest)
      = some (ts.map fun t => deltas 0 t.timed, rest) := by
  induction ts with
  | nil => rfl
  | cons t ts ih =>
    obtain ⟨hreadable, h⟩ := List.forall_mem_cons.mp h
    obtain ⟨hbody, hshort⟩ := List.forall_mem_cons.mp hshort
    have hfirst := run_track hreadable hbody (ts.flatMap Track.bytes ++ rest)
    have hrest := ih h hshort
    rw [List.length_cons, tracks, StateT.run_bind, List.flatMap_cons, List.append_assoc, hfirst,
      Option.bind_eq_bind, Option.bind_some, StateT.run_bind, hrest]
    rfl

theorem run_headerNumbers {format count division : Nat} (hformat : format < 2 ^ 16)
    (hcount : count < 2 ^ 16) (hdivision : division < 2 ^ 16) :
    Contents.headerNumbers.run (bigEndian 2 format ++ bigEndian 2 count ++ bigEndian 2 division)
      = some ((format, count, division), []) := by
  have hshort : division < 256 ^ 2 := by omega
  have hthird := run_number hshort []
  rw [List.append_nil] at hthird
  rw [Contents.headerNumbers, List.append_assoc, StateT.run_bind, run_number (by omega),
    Option.bind_eq_bind, Option.bind_some, StateT.run_bind, run_number (by omega),
    Option.bind_eq_bind, Option.bind_some, StateT.run_bind, hthird]
  rfl

/-- A file of readable tracks, read back: header and tracks, with nothing left over. -/
theorem read_bytes {f : File} (hcount : f.tracks.length < 2 ^ 16)
    (hdivision : f.ticksPerBeat < 2 ^ 16) (h : ∀ t ∈ f.tracks, Readable t)
    (hshort : ∀ t ∈ f.tracks, t.body.length < 2 ^ 32) :
    Contents.read f.bytes = some
      { headerLength := 6
        format := 1
        trackCount := f.tracks.length
        division := f.ticksPerBeat
        tracks := f.tracks.map fun t => deltas 0 t.timed } := by
  have hname : "MThd".toUTF8.toList.length = 4 := by decide +kernel
  have hlength : (bigEndian 2 1 ++ bigEndian 2 f.tracks.length
      ++ bigEndian 2 f.ticksPerBeat).length = 6 := by
    simp [length_bigEndian]
  have hheader := run_chunkBody hname (by rw [hlength]; decide) (f.tracks.flatMap Track.bytes)
  have hnumbers := run_headerNumbers (Nat.one_lt_two_pow (by omega)) hcount hdivision
  have htracks := run_tracks h hshort []
  rw [List.append_nil] at htracks
  have hreader : Contents.reader.run f.bytes = some (⟨6, 1, f.tracks.length, f.ticksPerBeat,
      f.tracks.map fun t => deltas 0 t.timed⟩, []) := by
    rw [Contents.reader, StateT.run_bind, File.bytes, File.header, hheader, Option.bind_eq_bind,
      Option.bind_some]
    simp only [hnumbers, hlength, StateT.run_bind, htracks]
    rfl
  rw [Contents.read, hreader]

end JustIntonation.Midi
