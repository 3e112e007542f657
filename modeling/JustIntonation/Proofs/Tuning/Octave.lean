/-
JustIntonation/Proofs/Tuning/Octave.lean

Octave classes.

Every positive rational has exactly one representative in the octave from one
up to below two that lies a whole number of octaves away (`IsOctaveClass`).
`octaveReduce` finds it in one division.  A reader would halve what is too
high as long as it is too high, and then double what is too low; these two
loops are given as relations (`Halved`, `Doubled`).  That they end is an
induction on a bound of the logarithm.

Main results: both loops end on what is positive and nowhere else
(`exists_loops_iff`), and they end in what the division finds
(`octaveReduce_of_loops`).
-/
import JustIntonation.Tuning.Scale
import Mathlib.Algebra.Order.Archimedean.Basic
import Mathlib.Algebra.Order.Field.Power
import Mathlib.Tactic.Linarith
import Mathlib.Tactic.Positivity

namespace JustIntonation.Tuning

variable {q r r' mid : ℚ}

/-! ### Classes -/

/-- The frequency in the octave from one up to below two that is a whole number of octaves away
from `q`. -/
structure IsOctaveClass (q r : ℚ) : Prop where
  one_le : 1 ≤ r
  lt_two : r < 2
  octaves : ∃ k : ℤ, q = r * 2 ^ k

/-- Of two frequencies that are the same up to octaves, the one that is at least one is not more
octaves below than the one that is below two. -/
theorem exponent_le {k k' : ℤ} (hr : 1 ≤ r) (hr' : r' < 2) (h : r * 2 ^ k = r' * 2 ^ k') :
    k ≤ k' := by
  have hlt : (2 : ℚ) ^ k < 2 ^ (k' + 1) := by
    calc (2 : ℚ) ^ k ≤ r * 2 ^ k := le_mul_of_one_le_left (by positivity) hr
      _ = r' * 2 ^ k' := h
      _ < 2 * 2 ^ k' := mul_lt_mul_of_pos_right hr' (by positivity)
      _ = 2 ^ (k' + 1) := by rw [zpow_add_one₀ two_ne_zero, mul_comm]
  exact Int.lt_add_one_iff.mp ((zpow_lt_zpow_iff_right₀ one_lt_two).mp hlt)

theorem IsOctaveClass.unique (h : IsOctaveClass q r) (h' : IsOctaveClass q r') : r = r' := by
  obtain ⟨k, hk⟩ := h.octaves
  obtain ⟨k', hk'⟩ := h'.octaves
  have hsame : r * 2 ^ k = r' * 2 ^ k' := hk.symm.trans hk'
  have hexponent : k = k' := le_antisymm (exponent_le h.one_le h'.lt_two hsame)
    (exponent_le h'.one_le h.lt_two hsame.symm)
  rw [hexponent] at hsame
  exact mul_right_cancel₀ (by positivity) hsame

theorem IsOctaveClass.pos (h : IsOctaveClass q r) : 0 < q := by
  obtain ⟨k, rfl⟩ := h.octaves
  have hr : 0 < r := one_pos.trans_le h.one_le
  positivity

/-- Octaves do not change the class. -/
theorem IsOctaveClass.mul_zpow (h : IsOctaveClass q r) (k : ℤ) : IsOctaveClass (q * 2 ^ k) r := by
  obtain ⟨k', rfl⟩ := h.octaves
  exact ⟨h.one_le, h.lt_two, k' + k, by rw [zpow_add₀ two_ne_zero, mul_assoc]⟩

theorem IsOctaveClass.self (hr : 1 ≤ r) (hr' : r < 2) : IsOctaveClass r r :=
  ⟨hr, hr', 0, by rw [zpow_zero, mul_one]⟩

/-! ### Reduction -/

theorem log2_bounds {n : ℕ} (hn : n ≠ 0) :
    (2 : ℚ) ^ Nat.log2 n ≤ n ∧ (n : ℚ) < 2 ^ (Nat.log2 n + 1) := by
  have hle := Nat.log2_self_le hn
  have hlt := Nat.lt_log2_self (n := n)
  exact ⟨by exact_mod_cast hle, by exact_mod_cast hlt⟩

/-- From one up, the binary digits of the whole part count the octaves. -/
theorem octaveOf_bounds_of_one_le (hq : 1 ≤ q) :
    (2 : ℚ) ^ octaveOf q ≤ q ∧ q < 2 ^ (octaveOf q + 1) := by
  have hfloor : 1 ≤ q.floor := Rat.le_floor_iff.mpr (by exact_mod_cast hq)
  obtain ⟨n, hn⟩ := Int.eq_ofNat_of_zero_le (zero_le_one.trans hfloor)
  have hle := q.floor_le
  have hlt := q.lt_floor_add_one
  rw [octaveOf, if_pos hq]
  rw [hn] at hfloor hle hlt ⊢
  obtain ⟨hlow, hhigh⟩ := log2_bounds (n := n) (by omega)
  have hnext : (n : ℚ) + 1 ≤ 2 ^ (Nat.log2 n + 1) := by exact_mod_cast hhigh
  constructor
  · exact_mod_cast hlow.trans hle
  · exact_mod_cast hlt.trans_le (by exact_mod_cast hnext)

/-- Below one, those of the reciprocal do, rounded up to a whole number. -/
theorem octaveOf_bounds_of_lt_one (hq : 0 < q) (hone : q < 1) :
    (2 : ℚ) ^ octaveOf q ≤ q ∧ q < 2 ^ (octaveOf q + 1) := by
  have hinv : q⁻¹ * q = 1 := inv_mul_cancel₀ hq.ne'
  have hceil : 0 < q⁻¹.ceil := Rat.lt_ceil_iff.mpr (by exact_mod_cast inv_pos.mpr hq)
  obtain ⟨n, hn⟩ := Int.eq_ofNat_of_zero_le hceil.le
  have hle : 1 ≤ n * q := by
    have hceil := Rat.le_ceil (x := q⁻¹)
    rw [hn] at hceil
    rw [← hinv]
    exact mul_le_mul_of_nonneg_right hceil hq.le
  have hlt : n * q < 2 := by
    have hceil := Rat.ceil_lt (x := q⁻¹)
    rw [hn] at hceil
    have hscaled := mul_lt_mul_of_pos_right hceil hq
    rw [add_mul, hinv, one_mul] at hscaled
    exact hscaled.trans (by linarith)
  rw [octaveOf, if_neg (not_le.mpr hone)]
  rw [hn] at hceil ⊢
  obtain ⟨hlow, hhigh⟩ := log2_bounds (n := n) (by omega)
  dsimp only [Int.natAbs_natCast]
  generalize Nat.log2 n = k at hlow hhigh ⊢
  have hpow : (0 : ℚ) < 2 ^ k := by positivity
  split_ifs with hbelow
  · have hnext : -((k : ℤ) + 1) + 1 = -(k : ℤ) := by ring
    rw [hnext, ← Nat.cast_succ, zpow_neg, zpow_neg, zpow_natCast, zpow_natCast,
      inv_le_iff_one_le_mul₀ (by positivity), inv_eq_one_div, lt_div_iff₀ hpow, mul_comm q,
      mul_comm q]
    exact ⟨hle.trans (mul_le_mul_of_nonneg_right hhigh.le hq.le), hbelow⟩
  · rw [zpow_add_one₀ two_ne_zero, zpow_neg, zpow_natCast, inv_le_iff_one_le_mul₀ hpow,
      inv_mul_eq_div, lt_div_iff₀ hpow, mul_comm q]
    exact ⟨not_lt.mp hbelow, (mul_le_mul_of_nonneg_right hlow hq.le).trans_lt hlt⟩

theorem octaveOf_bounds (hq : 0 < q) : (2 : ℚ) ^ octaveOf q ≤ q ∧ q < 2 ^ (octaveOf q + 1) := by
  rcases le_or_gt 1 q with hone | hone
  · exact octaveOf_bounds_of_one_le hone
  · exact octaveOf_bounds_of_lt_one hq hone

/-- A positive exact frequency is reduced to its class. -/
theorem octaveReduce_eq (h : IsOctaveClass q r) : octaveReduce (.exact q) = .exact r := by
  have hpow : (0 : ℚ) < 2 ^ octaveOf q := by positivity
  obtain ⟨hlow, hhigh⟩ := octaveOf_bounds h.pos
  have hclass : IsOctaveClass q (q / 2 ^ octaveOf q) :=
    { one_le := (one_le_div₀ hpow).mpr hlow
      lt_two := by rwa [div_lt_iff₀ hpow, mul_comm, ← zpow_add_one₀ two_ne_zero]
      octaves := ⟨octaveOf q, (div_mul_cancel₀ q hpow.ne').symm⟩ }
  rw [octaveReduce, if_neg (not_le.mpr h.pos), hclass.unique h]

/-! ### Loops -/

/-- To halve a number as long as it is at least two ends, with another number. -/
inductive Halved : ℚ → ℚ → Prop
  | done {q : ℚ} (low : q < 2) : Halved q q
  | turn {q r : ℚ} (high : 2 ≤ q) (rest : Halved (q / 2) r) : Halved q r

/-- To double a number as long as it is below one ends, with another number. -/
inductive Doubled : ℚ → ℚ → Prop
  | done {q : ℚ} (high : 1 ≤ q) : Doubled q q
  | turn {q r : ℚ} (low : q < 1) (rest : Doubled (q * 2) r) : Doubled q r

theorem exists_halved (q : ℚ) : ∃ r, Halved q r := by
  -- By induction on a bound: one octave less for every turn.
  obtain ⟨n, hn⟩ : ∃ n : ℕ, q < 2 ^ n := pow_unbounded_of_one_lt q one_lt_two
  induction n generalizing q with
  | zero => exact ⟨q, .done (hn.trans (by norm_num))⟩
  | succ n ih =>
    rcases lt_or_ge q 2 with hlow | hhigh
    · exact ⟨q, .done hlow⟩
    · obtain ⟨r, hr⟩ := ih (q / 2) (by rwa [div_lt_iff₀ two_pos, ← pow_succ])
      exact ⟨r, .turn hhigh hr⟩

theorem exists_doubled (hq : 0 < q) : ∃ r, Doubled q r := by
  obtain ⟨n, hn⟩ : ∃ n : ℕ, q⁻¹ < 2 ^ n := pow_unbounded_of_one_lt q⁻¹ one_lt_two
  rw [inv_lt_iff_one_lt_mul₀ hq] at hn
  induction n generalizing q with
  | zero => exact ⟨q, .done (by simpa using hn.le)⟩
  | succ n ih =>
    rcases le_or_gt 1 q with hhigh | hlow
    · exact ⟨q, .done hhigh⟩
    · obtain ⟨r, hr⟩ := ih (q := q * 2) (by positivity)
        (by rwa [mul_comm q, ← mul_assoc, ← pow_succ])
      exact ⟨r, .turn hlow hr⟩

/-- Halving ends below two, some octaves down. -/
theorem Halved.octaves (h : Halved q r) : r < 2 ∧ ∃ k : ℤ, q = r * 2 ^ k := by
  induction h with
  | done low => exact ⟨low, 0, by rw [zpow_zero, mul_one]⟩
  | @turn q r _ _ ih =>
    obtain ⟨hlow, k, hk⟩ := ih
    refine ⟨hlow, k + 1, ?_⟩
    rw [zpow_add_one₀ two_ne_zero, ← mul_assoc, ← hk, div_mul_cancel₀ q two_ne_zero]

/-- Doubling ends in the octave from one to two, if it begins below two. -/
theorem Doubled.isOctaveClass (h : Doubled q r) (hq : q < 2) : IsOctaveClass q r := by
  induction h with
  | done high => exact .self high hq
  | @turn q r low _ ih =>
    have hclass := (ih (by linarith)).mul_zpow (-1)
    rwa [zpow_neg_one, mul_inv_cancel_right₀ two_ne_zero] at hclass

/-- What is halved as long as it is too high and then doubled as long as it is too low ends as its
class. -/
theorem isOctaveClass_of_loops (h : Halved q mid) (h' : Doubled mid r) : IsOctaveClass q r := by
  obtain ⟨hlow, k, rfl⟩ := h.octaves
  exact (h'.isOctaveClass hlow).mul_zpow k

/-- On what is positive, and only there, both loops end. -/
theorem exists_loops_iff : (∃ mid r, Halved q mid ∧ Doubled mid r) ↔ 0 < q := by
  constructor
  · rintro ⟨mid, r, hmid, hr⟩
    exact (isOctaveClass_of_loops hmid hr).pos
  · intro hq
    obtain ⟨mid, hmid⟩ := exists_halved q
    obtain ⟨-, k, rfl⟩ := hmid.octaves
    obtain ⟨r, hr⟩ := exists_doubled (q := mid) (pos_of_mul_pos_left hq (by positivity))
    exact ⟨mid, r, hmid, hr⟩

/-- What the loops end in is what the division finds. -/
theorem octaveReduce_of_loops (h : Halved q mid) (h' : Doubled mid r) :
    octaveReduce (.exact q) = .exact r :=
  octaveReduce_eq (isOctaveClass_of_loops h h')

theorem exists_isOctaveClass (hq : 0 < q) : ∃ r, IsOctaveClass q r := by
  obtain ⟨mid, r, hmid, hr⟩ := exists_loops_iff.mpr hq
  exact ⟨r, isOctaveClass_of_loops hmid hr⟩

end JustIntonation.Tuning
