/-
JustIntonation/Proofs/Midi/Stroke.lean

How a note can be struck, bent (`Stroke.bent_eq_ok`) or on a retuned keyboard
(`Stroke.mapped_eq_ok`).  Either way what the struck note holds fits into the
bytes of its messages (`Stroke.fits_bent`, `Stroke.fits_mapped`).
-/
import JustIntonation.Midi.Stroke
import JustIntonation.Proofs.Except
import JustIntonation.Proofs.Tuning.Keyboard

namespace JustIntonation.Midi

/-- Key, bend, ticks and velocity lie in their ranges. -/
structure Stroke.Fits (s : Stroke) : Prop where
  key : s.key < 128
  bend : ∀ amount ∈ s.bend, amount ≤ maxBend
  ticks : s.ticks ≤ maxVariableLength
  velocity : s.velocity < 128

theorem durationTicks_le {ticksPerBeat : Nat} {duration : Quantity} {ticks : Nat}
    (h : durationTicks ticksPerBeat duration = .ok ticks) : ticks ≤ maxVariableLength := by
  simp only [durationTicks] at h
  -- Exact or not, whole ticks are let through up to the limit.
  split at h
  all_goals
    split_ifs at h with hwhole hrange
    have hticks := Except.ok.inj h
    omega

theorem velocityOf_lt {volume : Quantity} {velocity : Nat} (h : velocityOf volume = .ok velocity) :
    velocity < 128 := by
  simp only [velocityOf] at h
  split_ifs at h
  have hvelocity := Except.ok.inj h
  omega

theorem keyOf_lt {pitch : Int} {key : Nat} (h : keyOf pitch = .ok key) : key < 128 := by
  simp only [keyOf] at h
  split_ifs at h
  have hkey := Except.ok.inj h
  omega

theorem bendOf_le {bend : Int} {amount : Nat} (h : bendOf bend = .ok amount) :
    amount ≤ maxBend := by
  simp only [bendOf] at h
  split_ifs at h
  have hamount := Except.ok.inj h
  omega

/-! ### Bent notes -/

section Bent

variable {f0 : Binary64} {bendRange ticksPerBeat : Nat} {n : Note} {s : Stroke}

/-- A bent note has its ticks and a bend; it is a silent key 0 without a bend to either side
where its frequency is zero. -/
theorem Stroke.bent_eq_ok (h : Stroke.bent f0 bendRange ticksPerBeat n = .ok s) :
    durationTicks ticksPerBeat n.duration = .ok s.ticks ∧
    (s.key = 0 ∧ s.bend = some bendCenter ∧ s.velocity = 0 ∨
      ∃ pitch bend amount, keyOf pitch = .ok s.key ∧ bendOf bend = .ok amount ∧
        s.bend = some amount ∧ velocityOf n.volume = .ok s.velocity) := by
  simp only [Stroke.bent, ite_throw_eq_ok, bind_eq_ok] at h
  obtain ⟨-, ticks, hticks, h⟩ := h
  split_ifs at h with hrest
  · obtain rfl := pure_eq_ok.mp h
    exact ⟨hticks, .inl ⟨rfl, rfl, rfl⟩⟩
  · simp only [bind_eq_ok, pure_eq_ok] at h
    obtain ⟨key, hkey, amount, hamount, velocity, hvelocity, rfl⟩ := h
    exact ⟨hticks, .inr ⟨_, _, amount, hkey, hamount, rfl, hvelocity⟩⟩

theorem Stroke.exists_bend_of_bent (h : Stroke.bent f0 bendRange ticksPerBeat n = .ok s) :
    ∃ amount, s.bend = some amount := by
  obtain ⟨-, ⟨-, hbend, -⟩ | ⟨-, -, amount, -, -, hbend, -⟩⟩ := bent_eq_ok h
  · exact ⟨bendCenter, hbend⟩
  · exact ⟨amount, hbend⟩

theorem Stroke.fits_bent (h : Stroke.bent f0 bendRange ticksPerBeat n = .ok s) : s.Fits := by
  obtain ⟨hticks, ⟨hkey, hbend, hvelocity⟩ | ⟨_, _, amount, hkey, hamount, hbend, hvelocity⟩⟩ :=
    bent_eq_ok h
  · refine ⟨by omega, ?_, durationTicks_le hticks, by omega⟩
    rw [hbend]
    rintro amount ⟨⟩
    exact Nat.le_of_ble_eq_true rfl
  · refine ⟨keyOf_lt hkey, ?_, durationTicks_le hticks, velocityOf_lt hvelocity⟩
    rw [hbend]
    rintro amount ⟨⟩
    exact bendOf_le hamount

end Bent

/-! ### Notes on a retuned keyboard -/

section Mapped

variable {keys : Tuning.KeyMap} {ticksPerBeat : Nat} {n : Note} {s : Stroke}

/-- A note on a retuned keyboard has its ticks, no bend, and the key of its frequency; a rest is
a silent key 0. -/
theorem Stroke.mapped_eq_ok (h : Stroke.mapped keys ticksPerBeat n = .ok s) :
    durationTicks ticksPerBeat n.duration = .ok s.ticks ∧ s.bend = none ∧
    (n.isRest ∧ s.key = 0 ∧ s.velocity = 0 ∨
      ¬ n.isRest ∧ keys.find? n.frequency.value = some s.key ∧
        velocityOf n.volume = .ok s.velocity) := by
  simp only [Stroke.mapped, bind_eq_ok] at h
  obtain ⟨ticks, hticks, h⟩ := h
  split_ifs at h with hrest
  · obtain rfl := pure_eq_ok.mp h
    exact ⟨hticks, rfl, .inl ⟨hrest, rfl, rfl⟩⟩
  · split at h
    · cases h
    · rename_i key hfind
      simp only [bind_eq_ok, pure_eq_ok] at h
      obtain ⟨velocity, hvelocity, rfl⟩ := h
      exact ⟨hticks, rfl, .inr ⟨hrest, hfind, hvelocity⟩⟩

theorem Stroke.fits_mapped (hkeys : ∀ f key, keys.find? f = some key → key < 128)
    (h : Stroke.mapped keys ticksPerBeat n = .ok s) : s.Fits := by
  obtain ⟨hticks, hbend, ⟨-, hkey, hvelocity⟩ | ⟨-, hfind, hvelocity⟩⟩ := mapped_eq_ok h
  · exact ⟨by omega, by simp [hbend], durationTicks_le hticks, by omega⟩
  · exact ⟨hkeys _ _ hfind, by simp [hbend], durationTicks_le hticks, velocityOf_lt hvelocity⟩

end Mapped

end JustIntonation.Midi
