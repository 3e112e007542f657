/-
JustIntonation/Proofs/Binary64/Rounding.lean

Rounding gives back what is a double already.

A rational is rounded by its numerator and denominator, in whatever terms they
are (`roundMagnitude_num_den`).  The units of a finite double are among those
that rounding leaves alone, below the normal numbers as well as among them, so
the rational of a double rounds to that double (`roundMagnitude_unitsOf`).  At
the ends there are bounds: what is small enough rounds to zero
(`roundMagnitude_eq_zero_of_lt`) and what is large enough past all finite
values (`infinityMagnitude_le_of_le`).
-/
import JustIntonation.Proofs.Binary64.Value
import Mathlib.Tactic.NormNum

namespace JustIntonation.Binary64

/-! ### Division, half to even -/

section Division

variable {n d k : ℕ}

theorem divHalfEven_mul_right (hk : 0 < k) : divHalfEven (n * k) (d * k) = divHalfEven n d := by
  have hlow : 2 * (n % d * k) < d * k ↔ 2 * (n % d) < d := by
    rw [← Nat.mul_assoc, Nat.mul_lt_mul_right hk]
  have hhigh : d * k < 2 * (n % d * k) ↔ d < 2 * (n % d) := by
    rw [← Nat.mul_assoc, Nat.mul_lt_mul_right hk]
  simp only [divHalfEven, Nat.mul_div_mul_right n d hk, Nat.mul_mod_mul_right, hlow, hhigh]

/-- What divides evenly is not rounded. -/
theorem divHalfEven_mul_left (hd : 0 < d) : divHalfEven (n * d) d = n := by
  simp [divHalfEven, Nat.mul_div_cancel _ hd, hd]

theorem divHalfEven_eq_zero (h : 2 * n < d) : divHalfEven n d = 0 := by
  have hlt : n < d := by omega
  rw [divHalfEven, Nat.div_eq_of_lt hlt, Nat.mod_eq_of_lt hlt]
  simp [h]

theorem div_le_divHalfEven : n / d ≤ divHalfEven n d := by
  simp only [divHalfEven]
  split_ifs <;> omega

end Division

/-! ### Magnitudes -/

section Magnitudes

variable {n d : ℕ}

/-- How many units one is. -/
def unitsPerOne : ℕ := 1 <<< 1074

theorem one_shiftLeft_pos (k : ℕ) : 0 < 1 <<< k := by
  rw [Nat.one_shiftLeft]
  exact Nat.two_pow_pos k

theorem shiftLeft_eq_mul (n k : ℕ) : n <<< k = n * 1 <<< k := by
  rw [Nat.one_shiftLeft, Nat.shiftLeft_eq]

theorem unitsPerOne_pos : 0 < unitsPerOne := one_shiftLeft_pos 1074

/-- The units of a fraction are rounded to places of `k` bits, if it has as many above 53. -/
theorem roundMagnitude_eq {k : ℕ} (hk : Nat.log2 (n * unitsPerOne / d) - 52 = k) :
    roundMagnitude n d = k * 2 ^ 52 + divHalfEven (n * unitsPerOne) (d * 2 ^ k) := by
  have hunits : n <<< 1074 = n * unitsPerOne := shiftLeft_eq_mul n 1074
  rw [roundMagnitude, hunits, ← hk, ← Nat.shiftLeft_eq, ← Nat.shiftLeft_eq]

theorem roundMagnitude_mul_right {k : ℕ} (hk : 0 < k) :
    roundMagnitude (n * k) (d * k) = roundMagnitude n d := by
  have hunits : n * k * unitsPerOne = n * unitsPerOne * k := Nat.mul_right_comm ..
  have hplaces : Nat.log2 (n * k * unitsPerOne / (d * k)) - 52
      = Nat.log2 (n * unitsPerOne / d) - 52 := by
    rw [hunits, Nat.mul_div_mul_right _ _ hk]
  rw [roundMagnitude_eq hplaces, roundMagnitude_eq rfl, hunits, Nat.mul_right_comm d,
    divHalfEven_mul_right hk]

theorem natAbs_num_eq_abs (q : ℚ) : (q.num.natAbs : ℚ) = |q| * q.den := by
  rw [← Nat.abs_cast q.den, ← abs_mul, Rat.mul_den_eq_num, Nat.cast_natAbs, Int.cast_abs]

theorem natAbs_num_eq {q : ℚ} (hq : 0 ≤ q) : (q.num.natAbs : ℚ) = q * q.den := by
  rw [natAbs_num_eq_abs, abs_of_nonneg hq]

/-- A fraction rounds to the same in any terms. -/
theorem roundMagnitude_num_den {q : ℚ} (hd : 0 < d) (h : q = n / d) :
    roundMagnitude q.num.natAbs q.den = roundMagnitude n d := by
  have hcross : q.num.natAbs * d = n * q.den := by
    have hq : (0 : ℚ) ≤ q := by
      rw [h]
      positivity
    have hmul : q * d = n := by rw [h, div_mul_cancel₀ _ (Nat.cast_ne_zero.mpr hd.ne')]
    have hcast : ((q.num.natAbs * d : ℕ) : ℚ) = (n * q.den : ℕ) := by
      rw [Nat.cast_mul, Nat.cast_mul, natAbs_num_eq hq, mul_right_comm, hmul]
    exact_mod_cast hcast
  rw [← roundMagnitude_mul_right hd, hcross, Nat.mul_comm q.den d, roundMagnitude_mul_right q.pos]

/-- The units of a magnitude round to that magnitude. -/
theorem roundMagnitude_unitsOf (c : ℕ) : roundMagnitude (unitsOf c) unitsPerOne = c := by
  have hwhole : unitsOf c * unitsPerOne / unitsPerOne = unitsOf c :=
    Nat.mul_div_cancel _ unitsPerOne_pos
  have hsplit (k m : ℕ) : divHalfEven (m * 2 ^ k * unitsPerOne) (unitsPerOne * 2 ^ k) = m := by
    rw [Nat.mul_assoc, Nat.mul_comm unitsPerOne]
    exact divHalfEven_mul_left (Nat.mul_pos (Nat.two_pow_pos k) unitsPerOne_pos)
  rcases lt_or_ge c (2 ^ 52) with hc | hc
  · -- Without a leading one the units are the magnitude.
    have hlog : Nat.log2 c - 52 = 0 := by
      rcases Nat.eq_zero_or_pos c with rfl | hpos
      · rfl
      · exact Nat.sub_eq_zero_of_le ((Nat.log2_lt hpos.ne').mpr hc).le
    have hunits := hsplit 0 c
    rw [pow_zero, Nat.mul_one] at hunits
    rw [unitsOf_of_lt hc] at hwhole ⊢
    rw [roundMagnitude_eq (by rw [hwhole, hlog]), pow_zero, hunits, Nat.zero_mul, Nat.zero_add]
  · have hfield : 1 ≤ c / 2 ^ 52 := (Nat.one_le_div_iff (Nat.two_pow_pos 52)).mpr hc
    have hlog : Nat.log2 (unitsOf c) = c / 2 ^ 52 + 51 := by
      have hlow := pow_le_unitsOf hc
      rw [Nat.log2_eq_iff ((Nat.two_pow_pos _).trans_le hlow).ne']
      exact ⟨hlow, unitsOf_lt_pow c⟩
    have hplaces : Nat.log2 (unitsOf c) - 52 = c / 2 ^ 52 - 1 := by omega
    rw [roundMagnitude_eq (by rw [hwhole, hplaces]), unitsOf_of_le hc, hsplit]
    omega

/-- Less than half a unit rounds to zero. -/
theorem roundMagnitude_eq_zero (h : 2 * (n * unitsPerOne) < d) : roundMagnitude n d = 0 := by
  have hzero : n * unitsPerOne / d = 0 := by
    apply Nat.div_eq_of_lt
    omega
  rw [roundMagnitude_eq (by rw [hzero, Nat.log2_zero]), Nat.zero_sub, pow_zero, Nat.mul_one,
    Nat.zero_mul, Nat.zero_add]
  exact divHalfEven_eq_zero h

/-- With bits to spare above 53, the rounded units have their leading bit. -/
theorem two_pow_le_divHalfEven {k : ℕ} (hk : Nat.log2 (n / d) = k + 52) :
    2 ^ 52 ≤ divHalfEven n (d * 2 ^ k) := by
  have hne : n / d ≠ 0 := by
    intro hzero
    rw [hzero, Nat.log2_zero] at hk
    omega
  have hleading : 2 ^ 52 ≤ n / d / 2 ^ k := by
    rw [Nat.le_div_iff_mul_le (Nat.two_pow_pos k), ← pow_add, Nat.add_comm, ← hk]
    exact (Nat.le_log2 hne).mp le_rfl
  rw [Nat.div_div_eq_div_mul] at hleading
  exact hleading.trans div_le_divHalfEven

/-- From `2¹⁰²⁴` on all finite magnitudes are exceeded. -/
theorem infinityMagnitude_le_roundMagnitude (hd : 0 < d) (h : 2 ^ 1024 * d ≤ n) :
    infinityMagnitude ≤ roundMagnitude n d := by
  have hpow (j k : ℕ) : 2 ^ j * 1 <<< k = 2 ^ (j + k) := by rw [Nat.one_shiftLeft, pow_add]
  have hunits : 2 ^ (1024 + 1074) ≤ n * unitsPerOne / d := by
    rw [Nat.le_div_iff_mul_le hd, ← hpow 1024 1074, Nat.mul_right_comm]
    exact Nat.mul_le_mul_right _ h
  rw [roundMagnitude_eq rfl]
  generalize n * unitsPerOne = units at hunits
  generalize hbits : 1024 + 1074 = bits at hunits
  have hne : units / d ≠ 0 := ((Nat.two_pow_pos bits).trans_le hunits).ne'
  have hlog : bits ≤ Nat.log2 (units / d) := (Nat.le_log2 hne).mpr hunits
  obtain ⟨k, hk⟩ := Nat.exists_eq_add_of_le' (show 52 ≤ Nat.log2 (units / d) by omega)
  have hrounded := two_pow_le_divHalfEven hk
  rw [hk, Nat.add_sub_cancel, infinityMagnitude]
  omega

/-! ### The ends of the range -/

theorem two_pow_le_ten_pow (k : ℕ) : (2 : ℚ) ^ (13 * k) ≤ 10 ^ (4 * k) := by
  rw [pow_mul, pow_mul]
  exact pow_le_pow_left₀ (by norm_num) (by norm_num) k

/-- A rational that has more than four hundred digits in front of its point rounds past all finite
magnitudes. -/
theorem infinityMagnitude_le_of_le {q : ℚ} (h : (10 : ℚ) ^ (4 * 100) ≤ q) :
    infinityMagnitude ≤ roundMagnitude q.num.natAbs q.den := by
  have hlarge : (2 : ℚ) ^ 1024 ≤ q :=
    calc (2 : ℚ) ^ 1024 ≤ 2 ^ (13 * 100) := pow_le_pow_right₀ (by norm_num) (by norm_num)
      _ ≤ 10 ^ (4 * 100) := two_pow_le_ten_pow 100
      _ ≤ q := h
  have hq : 0 ≤ q := le_trans (by positivity) hlarge
  apply infinityMagnitude_le_roundMagnitude q.pos
  have hcast : ((2 ^ 1024 * q.den : ℕ) : ℚ) ≤ (q.num.natAbs : ℕ) := by
    rw [natAbs_num_eq hq, Nat.cast_mul, Nat.cast_pow]
    exact mul_le_mul_of_nonneg_right hlarge (Nat.cast_nonneg _)
  exact_mod_cast hcast

/-- A rational with more than four hundred zeros behind its point rounds to zero. -/
theorem roundMagnitude_eq_zero_of_lt {q : ℚ} (hq : 0 ≤ q) (h : q * (10 : ℚ) ^ (4 * 100) < 1) :
    roundMagnitude q.num.natAbs q.den = 0 := by
  have hsmall : q * (2 * unitsPerOne) < 1 := by
    have hunits : (2 : ℚ) * unitsPerOne ≤ 10 ^ (4 * 100) :=
      calc (2 : ℚ) * unitsPerOne = 2 ^ (1 + 1074) := by
            rw [pow_add, pow_one, ← cast_one_shiftLeft 1074, unitsPerOne]
        _ ≤ 2 ^ (13 * 100) := pow_le_pow_right₀ (by norm_num) (by norm_num)
        _ ≤ 10 ^ (4 * 100) := two_pow_le_ten_pow 100
    exact (mul_le_mul_of_nonneg_left hunits hq).trans_lt h
  apply roundMagnitude_eq_zero
  have hcast : ((2 * (q.num.natAbs * unitsPerOne) : ℕ) : ℚ) < (q.den : ℕ) := by
    have hden : (0 : ℚ) < q.den := Nat.cast_pos.mpr q.pos
    rw [Nat.cast_mul, Nat.cast_mul, natAbs_num_eq hq]
    calc ((2 : ℕ) : ℚ) * (q * q.den * unitsPerOne) = q * (2 * unitsPerOne) * q.den := by
          push_cast
          ring
      _ < 1 * q.den := mul_lt_mul_of_pos_right hsmall hden
      _ = q.den := one_mul _
  exact_mod_cast hcast

@[simp] theorem roundMagnitude_zero (d : ℕ) : roundMagnitude 0 d = 0 := by
  simp [roundMagnitude, divHalfEven]

end Magnitudes

end JustIntonation.Binary64
