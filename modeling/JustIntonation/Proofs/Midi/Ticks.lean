/-
JustIntonation/Proofs/Midi/Ticks.lean

The ticks of notes of exact duration.

A number of ticks is counted before anything else is asked of a note, so a
note is refused for its ticks exactly if they cannot be counted
(`Stroke.bent_eq_error_iff`, `Stroke.mapped_eq_error_iff`).  They can be if the
product of the duration and the ticks of a beat is a whole number that fits
into a delta time, and then they are that number (`tickCount_durationTicks`).

Main result: `ticks_exact_or_refused`.
-/
import JustIntonation.Proofs.Midi.Stroke
import JustIntonation.Proofs.Midi.VariableLength
import Mathlib.Data.Rat.Lemmas

namespace JustIntonation.Midi

/-! ### Counting -/

/-- What becomes of a duration that lasts some number of ticks, whole or not. -/
inductive TickCount (ticksPerBeat : ℕ) (duration : Quantity) (ticks : ℚ) : Except Fault ℕ → Prop
  | counted {k : ℕ} (hwhole : ticks = k) (hfits : k ≤ maxVariableLength) :
      TickCount ticksPerBeat duration ticks (.ok k)
  | outOfRange {k : ℤ} (hwhole : ticks = k) (hrange : ¬(0 ≤ k ∧ k ≤ maxVariableLength)) :
      TickCount ticksPerBeat duration ticks (.error (.violation (.ticksOutOfRange duration)))
  | fractional (hfraction : ∀ k : ℤ, ticks ≠ k) :
      TickCount ticksPerBeat duration ticks
        (.error (.violation (.fractionalTicks duration ticksPerBeat)))

theorem tickCount_durationTicks {duration : Quantity} {d : ℚ} (hd : duration.value = .exact d)
    (ticksPerBeat : ℕ) :
    TickCount ticksPerBeat duration (d * ticksPerBeat) (durationTicks ticksPerBeat duration) := by
  simp only [durationTicks, hd]
  split_ifs with hwhole hrange
  · have hnum : ((d * ticksPerBeat).num : ℚ) = d * ticksPerBeat := (Rat.den_eq_one_iff _).mp hwhole
    have htoNat : ((d * ticksPerBeat).num.toNat : ℤ) = (d * ticksPerBeat).num :=
      Int.toNat_of_nonneg hrange.1
    apply TickCount.counted
    · calc d * ticksPerBeat = ((d * ticksPerBeat).num : ℚ) := hnum.symm
        _ = (((d * ticksPerBeat).num.toNat : ℤ) : ℚ) := by rw [htoNat]
        _ = ((d * ticksPerBeat).num.toNat : ℚ) := Int.cast_natCast _
    · omega
  · exact .outOfRange ((Rat.den_eq_one_iff _).mp hwhole).symm hrange
  · apply TickCount.fractional
    intro k hk
    rw [hk] at hwhole
    exact hwhole (Rat.den_intCast k)

/-! ### Faults -/

/-- A fault of the number of ticks. -/
inductive IsTickFault : Fault → Prop
  | fractional (duration : Quantity) (ticksPerBeat : ℕ) :
      IsTickFault (.violation (.fractionalTicks duration ticksPerBeat))
  | outOfRange (duration : Quantity) : IsTickFault (.violation (.ticksOutOfRange duration))

section Faults

variable {f : Fault} {ticksPerBeat : ℕ} {n : Note}

theorem keyOf_ne_tickFault (hf : IsTickFault f) (pitch : ℤ) : keyOf pitch ≠ .error f := by
  intro h
  simp only [keyOf] at h
  split_ifs at h
  obtain rfl := Except.error.inj h
  cases hf

theorem bendOf_ne_tickFault (hf : IsTickFault f) (bend : ℤ) : bendOf bend ≠ .error f := by
  intro h
  simp only [bendOf] at h
  split_ifs at h
  obtain rfl := Except.error.inj h
  cases hf

theorem velocityOf_ne_tickFault (hf : IsTickFault f) (volume : Quantity) :
    velocityOf volume ≠ .error f := by
  intro h
  simp only [velocityOf] at h
  split_ifs at h
  obtain rfl := Except.error.inj h
  cases hf

/-- A bent note is refused for its ticks exactly if these cannot be counted. -/
theorem Stroke.bent_eq_error_iff {f0 : Binary64} {bendRange : ℕ} (hrange : 0 < bendRange)
    (hf : IsTickFault f) : Stroke.bent f0 bendRange ticksPerBeat n = .error f ↔
      durationTicks ticksPerBeat n.duration = .error f := by
  simp only [Stroke.bent, ite_throw_eq_error, bind_eq_error]
  constructor
  · rintro (⟨hzero, -⟩ | ⟨-, hticks | ⟨ticks, -, h⟩⟩)
    · omega
    · exact hticks
    · split_ifs at h
      · cases h
      · simp only [bind_eq_error, pure_ne_error, and_false, exists_false, or_false] at h
        obtain hkey | ⟨key, -, hbend | ⟨amount, -, hvelocity⟩⟩ := h
        · exact absurd hkey (keyOf_ne_tickFault hf _)
        · exact absurd hbend (bendOf_ne_tickFault hf _)
        · exact absurd hvelocity (velocityOf_ne_tickFault hf _)
  · intro hticks
    exact .inr ⟨Nat.ne_of_gt hrange, .inl hticks⟩

/-- So is a note on a retuned keyboard, whether the keyboard has a key for it or not. -/
theorem Stroke.mapped_eq_error_iff {keys : Tuning.KeyMap} (hf : IsTickFault f) :
    Stroke.mapped keys ticksPerBeat n = .error f ↔
      durationTicks ticksPerBeat n.duration = .error f := by
  simp only [Stroke.mapped, bind_eq_error]
  constructor
  · rintro (hticks | ⟨ticks, -, h⟩)
    · exact hticks
    · split_ifs at h
      · cases h
      · split at h
        · rw [throw_eq_error] at h
          subst h
          cases hf
        · simp only [bind_eq_error, pure_ne_error, and_false, exists_false, or_false] at h
          exact absurd h (velocityOf_ne_tickFault hf _)
  · exact .inl

end Faults

/-! ### Strokes -/

/-- A way to strike notes has exact ticks or none.  A note whose duration is some rational number of
beats is refused as fractional exactly if the ticks are no whole number, within the range or beyond
it; it is refused as out of range exactly if they are a whole number below zero or past what a delta
time holds; and a note that is struck has that very number of ticks, which four bytes can hold. -/
structure TicksExact (ticksPerBeat : ℕ) (strike : Note → Except Fault Stroke) : Prop where
  fractional : ∀ (n : Note) (d : ℚ), n.duration.value = .exact d → ∀ duration tpb,
    strike n = .error (.violation (.fractionalTicks duration tpb)) ↔
      duration = n.duration ∧ tpb = ticksPerBeat ∧ ∀ k : ℤ, d * ticksPerBeat ≠ k
  outOfRange : ∀ (n : Note) (d : ℚ), n.duration.value = .exact d → ∀ duration,
    strike n = .error (.violation (.ticksOutOfRange duration)) ↔
      duration = n.duration ∧ ∃ k : ℤ, d * ticksPerBeat = k ∧ ¬(0 ≤ k ∧ k ≤ 0x0FFFFFFF)
  exact : ∀ (n : Note) (d : ℚ) (s : Stroke), n.duration.value = .exact d → strike n = .ok s →
    d * ticksPerBeat = s.ticks ∧ (variableLength s.ticks).length ≤ 4

/-- Ticks that are counted before all else are exact or refused. -/
theorem TicksExact.of_counted {ticksPerBeat : ℕ} {strike : Note → Except Fault Stroke}
    (hok : ∀ n s, strike n = .ok s → durationTicks ticksPerBeat n.duration = .ok s.ticks)
    (herror : ∀ n f, IsTickFault f →
      (strike n = .error f ↔ durationTicks ticksPerBeat n.duration = .error f)) :
    TicksExact ticksPerBeat strike where
  fractional := by
    intro n d hd duration tpb
    rw [herror n _ (.fractional duration tpb)]
    have hcount := tickCount_durationTicks hd ticksPerBeat
    constructor
    · intro h
      rw [h] at hcount
      cases hcount with
      | fractional hfraction => exact ⟨rfl, rfl, hfraction⟩
    · rintro ⟨rfl, rfl, hfraction⟩
      generalize durationTicks tpb n.duration = count at hcount
      cases hcount with
      | @counted k hwhole => exact absurd hwhole (mod_cast hfraction k)
      | @outOfRange k hwhole => exact absurd hwhole (hfraction k)
      | fractional => rfl
  outOfRange := by
    intro n d hd duration
    rw [herror n _ (.outOfRange duration)]
    have hcount := tickCount_durationTicks hd ticksPerBeat
    constructor
    · intro h
      rw [h] at hcount
      cases hcount with
      | @outOfRange k hwhole hrange => exact ⟨rfl, k, hwhole, hrange⟩
    · rintro ⟨rfl, k, hk, hrange⟩
      generalize durationTicks ticksPerBeat n.duration = count at hcount
      cases hcount with
      | @counted l hwhole hfits =>
        have heq : (l : ℤ) = k := mod_cast hwhole.symm.trans hk
        rw [maxVariableLength] at hfits
        omega
      | outOfRange => rfl
      | fractional hfraction => exact absurd hk (hfraction k)
  exact := by
    intro n d s hd hs
    have hcount := tickCount_durationTicks hd ticksPerBeat
    rw [hok n s hs] at hcount
    cases hcount with
    | counted hwhole hfits => exact ⟨hwhole, (length_variableLength_le_four_iff _).mpr hfits⟩

/-- Bent or on a retuned keyboard, with any keys at all, notes have exact ticks or are refused. -/
theorem ticks_exact_or_refused (ticksPerBeat : ℕ) :
    (∀ (f0 : Binary64) (bendRange : ℕ), 0 < bendRange →
      TicksExact ticksPerBeat (Stroke.bent f0 bendRange ticksPerBeat)) ∧
    ∀ keys : Tuning.KeyMap, TicksExact ticksPerBeat (Stroke.mapped keys ticksPerBeat) := by
  constructor
  · intro f0 bendRange hrange
    apply TicksExact.of_counted
    · exact fun n s hs => (Stroke.bent_eq_ok hs).1
    · exact fun n f hf => Stroke.bent_eq_error_iff hrange hf
  · intro keys
    apply TicksExact.of_counted
    · exact fun n s hs => (Stroke.mapped_eq_ok hs).1
    · exact fun n f hf => Stroke.mapped_eq_error_iff hf

/-- A note of a seventh of a large number of beats, more than a track can wait. -/
def longSeventh : Note :=
  ⟨.one, .product ⟨[.ofTerms 1 7 (by decide), .ofInt 0x7FFFFFFFFFFFFFFF]⟩, .one⟩

/-- The seventh of the large number is a whole number of beats, so the note is out of range. -/
theorem ticks_exact_or_refused_longSeventh :
    0 < 2 ∧ longSeventh.duration.value = .exact 1317624576693539401 ∧
    Stroke.bent (.ofInt 440) 2 960 longSeventh
      = .error (.violation (.ticksOutOfRange longSeventh.duration)) ∧
    Stroke.mapped [] 960 longSeventh
      = .error (.violation (.ticksOutOfRange longSeventh.duration)) := by
  have hvalue : longSeventh.duration.value = .exact 1317624576693539401 := by decide +kernel
  have hticks : ∃ k : ℤ, (1317624576693539401 : ℚ) * (960 : ℕ) = k ∧
      ¬(0 ≤ k ∧ k ≤ 0x0FFFFFFF) := ⟨1264919593625797824960, by norm_num, by decide⟩
  obtain ⟨hbent, hmapped⟩ := ticks_exact_or_refused 960
  exact ⟨by decide, hvalue,
    ((hbent (.ofInt 440) 2 (by decide)).outOfRange _ _ hvalue _).mpr ⟨rfl, hticks⟩,
    ((hmapped []).outOfRange _ _ hvalue _).mpr ⟨rfl, hticks⟩⟩

end JustIntonation.Midi
