/-
JustIntonation/Proofs/Midi/Bend.lean

Which notes have a key under pitch bend.

A note stands some distance from middle C, in semitones.  The nearest whole
number of them gives the key, and what is left is half a semitone at most, so
a note that has a key has a bend as well (`exists_bendOf`).  The distance may
be any double at all.  Infinities and large numbers are limited to 64-bit
integers, and the sum with key 60 may then leave these and come out negative;
either way the key is off the keyboard.  A distance that is undefined, though,
counts as none, and its bend as zero.

Main result: `bentAt_semitones`.
-/
import JustIntonation.Proofs.Binary64.Nearest
import JustIntonation.Proofs.Midi.Stroke

namespace JustIntonation.Midi

open Binary64

/-! ### Whole semitones -/

/-- The whole semitones of a distance, as a 64-bit integer has them. -/
def wholeSemitones (x : Binary64) : ℤ :=
  if x.isNaN then 0
  else if x.isInfinite then if x.negative then minInt64 else maxInt64
  else clampInt64 (nearestEven x.toRat)

/-- The key nearest to a distance is one of the keyboard's. -/
structure OnKeyboard (x : Binary64) : Prop where
  isFinite : x.isFinite = true
  nonneg : 0 ≤ 60 + nearestEven x.toRat
  le : 60 + nearestEven x.toRat ≤ 127

section Distance

variable {x : Binary64}

theorem toInt64_roundEven_eq (x : Binary64) : x.roundEven.toInt64 = wholeSemitones x := by
  cases hx : x.isFinite with
  | true =>
    rw [toInt64_roundEven hx, wholeSemitones, isNaN_of_isFinite hx, isInfinite_of_isFinite hx,
      if_neg Bool.false_ne_true, if_neg Bool.false_ne_true]
  | false =>
    rw [roundEven_of_not_isFinite hx, toInt64, wholeSemitones]
    by_cases hnan : x.isNaN = true
    · rw [if_pos hnan, if_pos hnan]
    · have hinfinite : x.isInfinite = true := by
        by_contra hinfinite
        rw [isFinite_iff.mpr ⟨Bool.eq_false_iff.mpr hnan, Bool.eq_false_iff.mpr hinfinite⟩] at hx
        cases hx
      rw [if_neg hnan, if_neg hnan, if_pos hinfinite, if_pos hinfinite]

theorem wholeSemitones_mem (x : Binary64) :
    minInt64 ≤ wholeSemitones x ∧ wholeSemitones x ≤ maxInt64 := by
  simp only [wholeSemitones, clampInt64, minInt64, maxInt64]
  split_ifs <;> omega

theorem OnKeyboard.wholeSemitones_eq (h : OnKeyboard x) :
    wholeSemitones x = nearestEven x.toRat := by
  have hnonneg := h.nonneg
  have hle := h.le
  rw [wholeSemitones, isNaN_of_isFinite h.isFinite, isInfinite_of_isFinite h.isFinite]
  simp only [Bool.false_eq_true, if_false, clampInt64, minInt64, maxInt64]
  omega

/-- The sum of key 60 and the whole semitones is the one of integers, unless it is too large. -/
theorem word64_eq_iff (x : Binary64) :
    word64 (60 + wholeSemitones x) = 60 + wholeSemitones x ↔
      60 + wholeSemitones x ≤ maxInt64 := by
  have hmem := wholeSemitones_mem x
  simp only [minInt64, maxInt64, word64] at hmem ⊢
  rw [Int.bmod_def]
  omega

/-- Off the keyboard no key is found, also where the sum is too large. -/
theorem keyOf_of_not_onKeyboard (hnan : x.isNaN = false) (h : ¬ OnKeyboard x) :
    keyOf (word64 (60 + wholeSemitones x))
      = .error (.violation (.pitchOutOfRange (word64 (60 + wholeSemitones x)))) := by
  rw [keyOf, if_neg]
  rintro ⟨hnonneg, hle⟩
  have hkey : -60 ≤ wholeSemitones x ∧ wholeSemitones x ≤ 67 := by
    have hmem := wholeSemitones_mem x
    simp only [minInt64, maxInt64, word64] at hmem hnonneg hle
    rw [Int.bmod_def] at hnonneg hle
    omega
  simp only [wholeSemitones, hnan, Bool.false_eq_true, if_false, clampInt64, minInt64,
    maxInt64] at hkey
  split_ifs at hkey with hinfinite hsign
  · omega
  · omega
  · exact h ⟨isFinite_iff.mpr ⟨hnan, Bool.eq_false_iff.mpr hinfinite⟩, by omega, by omega⟩

theorem keyOf_of_onKeyboard (h : OnKeyboard x) :
    keyOf (word64 (60 + wholeSemitones x)) = .ok (60 + nearestEven x.toRat).toNat := by
  have hnonneg := h.nonneg
  have hle := h.le
  have hword : word64 (60 + nearestEven x.toRat) = 60 + nearestEven x.toRat := by
    rw [← h.wholeSemitones_eq, word64_eq_iff, h.wholeSemitones_eq, maxInt64]
    omega
  rw [h.wholeSemitones_eq, hword, keyOf, if_pos ⟨hnonneg, hle⟩]

end Distance

/-! ### The bend -/

/-- The bend of what a distance is off its nearest key, where `bendRange` semitones are a full
bend. -/
def bendAmount (bendRange : ℕ) (x : Binary64) : Binary64 :=
  (ofInt bendCenter + (x - x.roundEven)
    * (ofInt (maxBend - bendCenter : ℕ) / ofInt bendRange)).roundEven

section Remainder

variable {x : Binary64} {bendRange : ℕ}

/-- What is left of a distance is half a semitone at most. -/
theorem within_remainder (hx : x.isFinite = true) : (x - x.roundEven).Within (1 / 2) := by
  obtain ⟨hfinite, hvalue⟩ := toRat_roundEven hx
  have hhalf : Representable (1 / 2) := by
    have h := representable_div_two_pow (m := 1) (j := 1) (by norm_num) (by norm_num)
    rwa [Nat.cast_one, pow_one] at h
  apply within_of_magnitude_eq (magnitude_add hx (show (-x.roundEven).isFinite = true from hfinite))
  rw [toRat_neg, hvalue, ← sub_eq_add_neg]
  exact within_rounded _ hhalf (abs_sub_nearestEven_le _)

/-- A semitone is bent by no more than a full bend, however large the range. -/
theorem within_perSemitone (hrange : 0 < bendRange) :
    (ofInt (maxBend - bendCenter : ℕ) / ofInt bendRange).Within 8191 := by
  obtain ⟨hfull, hvalue⟩ := toRat_ofInt (n := (maxBend - bendCenter : ℕ)) (by decide)
  have habs : (ofInt (maxBend - bendCenter : ℕ)).absRat = 8191 := by
    rw [← abs_toRat, hvalue]
    exact abs_of_nonneg (by norm_num)
  have hone : 1 ≤ (ofInt bendRange).absRat := by
    have hrep : Representable 1 := by exact_mod_cast representable_natCast (n := 1) (by norm_num)
    apply le_absRat_rounded _ hrep
    rw [Int.cast_natCast, Nat.abs_cast]
    exact_mod_cast hrange
  have hnonzero : (ofInt bendRange).isZero = false := by
    rw [Bool.eq_false_iff]
    intro hzero
    rw [absRat_of_isZero hzero] at hone
    norm_num at hone
  show (div _ _).Within 8191
  simp only [div, isNaN_of_isFinite hfull, isInfinite_of_isFinite hfull, isNaN_ofInt, hnonzero,
    Bool.false_eq_true, if_false]
  split_ifs with hinfinite
  · -- A range past all doubles leaves nothing to bend.
    refine ⟨rfl, ?_⟩
    rw [absRat_of_isZero rfl]
    norm_num
  · have hrep : Representable 8191 := by
      exact_mod_cast representable_natCast (n := 8191) (by norm_num)
    apply within_rounded _ hrep
    rw [habs, abs_of_nonneg (div_nonneg (by norm_num) (absRat_nonneg _))]
    exact div_le_self (by norm_num) hone

/-- A note between two keys has a bend, half a semitone to either side at most. -/
theorem exists_bendOf (hx : x.isFinite = true) (hrange : 0 < bendRange) :
    ∃ amount : ℕ, bendOf (bendAmount bendRange x).toInt64 = .ok amount ∧
      4096 ≤ amount ∧ amount ≤ 12288 := by
  have hhalf : Representable 4096 := by
    exact_mod_cast representable_natCast (n := 4096) (by norm_num)
  have hend : Representable 12288 := by
    exact_mod_cast representable_natCast (n := 12288) (by norm_num)
  have hoffset : ((x - x.roundEven) * (ofInt (maxBend - bendCenter : ℕ) / ofInt bendRange)).Within
      4096 := (within_remainder hx).mul (within_perSemitone hrange) hhalf (by norm_num)
  rw [bendAmount]
  generalize (x - x.roundEven) * (ofInt (maxBend - bendCenter : ℕ) / ofInt bendRange) = offset
    at hoffset ⊢
  obtain ⟨hcenter, hvalue⟩ := toRat_ofInt (n := (bendCenter : ℕ)) (by decide)
  obtain ⟨hleft, hright⟩ := abs_le.mp ((abs_toRat offset).trans_le hoffset.absRat_le)
  have hlow : 4096 ≤ (ofInt bendCenter).toRat + offset.toRat := by
    rw [hvalue]
    norm_num [bendCenter]
    linarith
  have hhigh : (ofInt bendCenter).toRat + offset.toRat ≤ 12288 := by
    rw [hvalue]
    norm_num [bendCenter]
    linarith
  rw [add_of_isFinite hcenter hoffset.isFinite, if_neg (by linarith)]
  obtain ⟨hfinite, hfrom, hto⟩ := toRat_ofRat_mem hhalf hend (by linarith) hlow hhigh
  obtain ⟨habove, hbelow⟩ := toInt64_roundEven_mem (m := 4096) (n := 12288) hfinite (by decide)
    (by decide) (by exact_mod_cast hfrom) (by exact_mod_cast hto)
  refine ⟨_, if_pos ⟨by omega, ?_⟩, by omega, by omega⟩
  rw [maxBend]
  omega

/-- An undefined distance is handed on as its bend. -/
theorem bendAmount_of_isNaN (hx : x.isNaN = true) : bendAmount bendRange x = x := by
  have hremainder : x - x.roundEven = x := add_of_isNaN_left hx _
  rw [bendAmount, hremainder, mul_of_isNaN_left hx, add_of_isNaN_right (isNaN_ofInt _) hx,
    roundEven_of_not_isFinite (isFinite_of_isNaN hx)]

end Remainder

/-! ### Notes -/

/-- What becomes of a note that stands `x` semitones from middle C.  It is struck exactly if the
nearest key is on the keyboard or the distance is undefined, which is taken for key 60 with the
lowest bend.  Off the keyboard it is refused, with the number that a 64-bit sum gives: another
than that of the key exactly if the sum is too large for it. -/
structure BentAt (x : Binary64) (ticks velocity : ℕ) (outcome : Except Fault Stroke) : Prop where
  struck_iff : (∃ s, outcome = .ok s) ↔ OnKeyboard x ∨ x.isNaN = true
  onKeyboard : OnKeyboard x → ∃ key bend : ℕ, outcome = .ok ⟨key, some bend, ticks, velocity⟩ ∧
    key = 60 + nearestEven x.toRat ∧ 4096 ≤ bend ∧ bend ≤ 12288
  undefined : x.isNaN = true → outcome = .ok ⟨60, some 0, ticks, velocity⟩
  offKeyboard : ¬ OnKeyboard x → x.isNaN = false →
    outcome = .error (.violation (.pitchOutOfRange (word64 (60 + wholeSemitones x))))
  wraps_iff : (∃ pitch, outcome = .error (.violation (.pitchOutOfRange pitch)) ∧
    pitch ≠ 60 + wholeSemitones x) ↔ maxInt64 < 60 + wholeSemitones x

/-- The three outcomes say the rest. -/
theorem BentAt.of_outcomes {x : Binary64} {ticks velocity : ℕ} {outcome : Except Fault Stroke}
    (onKeyboard : OnKeyboard x → ∃ key bend : ℕ, outcome = .ok ⟨key, some bend, ticks, velocity⟩ ∧
      key = 60 + nearestEven x.toRat ∧ 4096 ≤ bend ∧ bend ≤ 12288)
    (undefined : x.isNaN = true → outcome = .ok ⟨60, some 0, ticks, velocity⟩)
    (offKeyboard : ¬ OnKeyboard x → x.isNaN = false →
      outcome = .error (.violation (.pitchOutOfRange (word64 (60 + wholeSemitones x))))) :
    BentAt x ticks velocity outcome := by
  have hstruck : OnKeyboard x ∨ x.isNaN = true → ∃ s, outcome = .ok s := by
    rintro (hkey | hnan)
    · obtain ⟨key, bend, hs, -⟩ := onKeyboard hkey
      exact ⟨_, hs⟩
    · exact ⟨_, undefined hnan⟩
  have hrefused : ¬ (OnKeyboard x ∨ x.isNaN = true) →
      outcome = .error (.violation (.pitchOutOfRange (word64 (60 + wholeSemitones x)))) := by
    intro hx
    rw [not_or] at hx
    exact offKeyboard hx.1 (Bool.eq_false_iff.mpr hx.2)
  have hwraps : word64 (60 + wholeSemitones x) ≠ 60 + wholeSemitones x ↔
      maxInt64 < 60 + wholeSemitones x := (not_congr (word64_eq_iff x)).trans not_le
  refine ⟨⟨?_, hstruck⟩, onKeyboard, undefined, offKeyboard, ⟨?_, ?_⟩⟩
  · rintro ⟨s, hs⟩
    by_contra hx
    rw [hrefused hx] at hs
    cases hs
  · rintro ⟨pitch, herror, hpitch⟩
    by_cases hx : OnKeyboard x ∨ x.isNaN = true
    · obtain ⟨s, hs⟩ := hstruck hx
      rw [hs] at herror
      cases herror
    · rw [hrefused hx] at herror
      cases herror
      exact hwraps.mp hpitch
  · intro hlarge
    refine ⟨_, hrefused ?_, hwraps.mpr hlarge⟩
    rw [maxInt64] at hlarge
    rintro (hkey | hnan)
    · have hle := hkey.le
      rw [hkey.wholeSemitones_eq] at hlarge
      omega
    · rw [wholeSemitones, if_pos hnan] at hlarge
      omega

section Semitones

variable {f0 : Binary64} {bendRange ticksPerBeat ticks velocity : ℕ} {n : Note}
  (hrange : 0 < bendRange) (hticks : durationTicks ticksPerBeat n.duration = .ok ticks)
  (hvelocity : velocityOf n.volume = .ok velocity)
  (hsounds : (n.frequency.value.toBinary64 * f0).isZero = false)
include hrange hticks hvelocity hsounds

theorem bent_eq_of_semitones {x : Binary64}
    (hx : semitones (n.frequency.value.toBinary64 * f0) = x) :
    Stroke.bent f0 bendRange ticksPerBeat n = (do
      let key ← keyOf (word64 (60 + wholeSemitones x))
      let bend ← bendOf (bendAmount bendRange x).toInt64
      pure ⟨key, some bend, ticks, velocity⟩) := by
  have hpureTicks : durationTicks ticksPerBeat n.duration = pure ticks := hticks
  have hpureVelocity : velocityOf n.volume = pure velocity := hvelocity
  simp only [Stroke.bent, bendAmount, if_neg hrange.ne', hpureTicks, hpureVelocity, hsounds, hx,
    toInt64_roundEven_eq, Bool.false_eq_true, if_false, pure_bind]

/-- A note with ticks and a velocity is struck or refused by its distance from middle C alone. -/
theorem bentAt_semitones :
    BentAt (semitones (n.frequency.value.toBinary64 * f0)) ticks velocity
      (Stroke.bent f0 bendRange ticksPerBeat n) := by
  rw [bent_eq_of_semitones hrange hticks hvelocity hsounds rfl]
  generalize semitones (n.frequency.value.toBinary64 * f0) = x
  apply BentAt.of_outcomes
  · intro hkey
    obtain ⟨amount, hamount, habove, hbelow⟩ := exists_bendOf hkey.isFinite hrange
    rw [keyOf_of_onKeyboard hkey, hamount]
    exact ⟨_, amount, rfl, Int.toNat_of_nonneg hkey.nonneg, habove, hbelow⟩
  · intro hnan
    -- What is no number counts as zero, both for the key and for the bend.
    rw [bendAmount_of_isNaN hnan, toInt64, if_pos hnan, wholeSemitones, if_pos hnan]
    rfl
  · intro hoff hnan
    rw [keyOf_of_not_onKeyboard hnan hoff]
    rfl

end Semitones

/-- A frequency past all doubles is infinitely far up, and its key past all 64-bit integers. -/
example : Stroke.bent (ofInt 440) 2 6720 ⟨.product ⟨List.replicate 20 (.ofInt (2 ^ 60))⟩, .one, .one⟩
    = .error (.violation (.pitchOutOfRange (60 + maxInt64 - 2 ^ 64))) := by
  decide +kernel

/-- The note 2, which is key 72 where 1 is middle C. -/
def secondHarmonic : Note := ⟨.ratio (.ofInt 2), .one, .one⟩

theorem bentAt_semitones_secondHarmonic :
    0 < 2 ∧ durationTicks 6720 secondHarmonic.duration = .ok 6720 ∧
    velocityOf secondHarmonic.volume = .ok 64 ∧
    (secondHarmonic.frequency.value.toBinary64 * middleC).isZero = false ∧
    ∃ bend, Stroke.bent middleC 2 6720 secondHarmonic = .ok ⟨72, some bend, 6720, 64⟩ := by
  have hticks : durationTicks 6720 secondHarmonic.duration = .ok 6720 := by decide +kernel
  have hvelocity : velocityOf secondHarmonic.volume = .ok 64 := by decide +kernel
  have hsounds : (secondHarmonic.frequency.value.toBinary64 * middleC).isZero = false := by
    decide +kernel
  have hbent := bentAt_semitones (by decide : 0 < 2) hticks hvelocity hsounds
  have htwelve : nearestEven
      (semitones (secondHarmonic.frequency.value.toBinary64 * middleC)).toRat = 12 := by
    decide +kernel
  obtain ⟨key, bend, hs, hkey, -⟩ := hbent.onKeyboard
    ⟨by decide +kernel, by rw [htwelve]; decide, by rw [htwelve]; decide⟩
  rw [htwelve] at hkey
  obtain rfl : key = 72 := by omega
  exact ⟨by decide, hticks, hvelocity, hsounds, bend, hs⟩

/-- Below zero hertz there is no distance from middle C, but there is a stroke. -/
theorem struck_below_zero :
    durationTicks 6720 Quantity.one = .ok 6720 ∧ velocityOf Quantity.one = .ok 64 ∧
    (Quantity.one.value.toBinary64 * ofInt (-440)).isZero = false ∧
    ¬ OnKeyboard (semitones (Quantity.one.value.toBinary64 * ofInt (-440))) ∧
    Stroke.bent (ofInt (-440)) 2 6720 ⟨.one, .one, .one⟩ = .ok ⟨60, some 0, 6720, 64⟩ := by
  have hfinite : (semitones (Quantity.one.value.toBinary64 * ofInt (-440))).isFinite = false := by
    decide +kernel
  refine ⟨by decide +kernel, by decide +kernel, by decide +kernel, ?_, by decide +kernel⟩
  intro hkey
  rw [hkey.isFinite] at hfinite
  cases hfinite

end JustIntonation.Midi
