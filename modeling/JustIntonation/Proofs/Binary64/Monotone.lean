/-
JustIntonation/Proofs/Binary64/Monotone.lean

Rounding keeps the order of absolute values.

A rounded quotient is off by half a step at most, so rounding could turn two
quotients around only if they were equal (`divHalfEven_mono`).  Magnitudes
are rounded to places that depend on their size, but where one has fewer
places than another it ends below the place at which the other begins
(`roundMagnitude_mono`).  Since a double rounds to itself, what is at most a
finite double stays so (`within_rounded`), and what is at least one too
(`le_absRat_rounded`).

Integers of up to 53 bits are doubles, and so they are with bits behind the
point (`representable_div_two_pow`).
-/
import JustIntonation.Proofs.Binary64.Rounding
import Mathlib.Algebra.Order.Ring.Unbundled.Rat
import Mathlib.Data.Nat.Log
import Mathlib.Tactic.Linarith

namespace JustIntonation.Binary64

/-! ### Quotients -/

section Division

variable {m n n' d d' : ℕ}

theorem divHalfEven_cases (n d : ℕ) :
    divHalfEven n d = n / d ∧ 2 * (n % d) ≤ d ∨
      divHalfEven n d = n / d + 1 ∧ d ≤ 2 * (n % d) := by
  simp only [divHalfEven]
  split_ifs <;> omega

theorem divHalfEven_mul_le (n d : ℕ) : 2 * (divHalfEven n d * d) ≤ 2 * n + d := by
  have hn : n / d * d + n % d = n := Nat.div_add_mod' n d
  rcases divHalfEven_cases n d with ⟨heq, -⟩ | ⟨heq, hup⟩
  · rw [heq]
    omega
  · rw [heq, Nat.succ_mul (n / d)]
    omega

theorem le_divHalfEven_mul (n : ℕ) (hd : 0 < d) : 2 * n ≤ 2 * (divHalfEven n d * d) + d := by
  have hn : n / d * d + n % d = n := Nat.div_add_mod' n d
  have hlt : n % d < d := Nat.mod_lt n hd
  rcases divHalfEven_cases n d with ⟨heq, hdown⟩ | ⟨heq, -⟩
  · rw [heq]
    omega
  · rw [heq, Nat.succ_mul (n / d)]
    omega

theorem divHalfEven_mono (hd : 0 < d) (hd' : 0 < d') (h : n * d' ≤ n' * d) :
    divHalfEven n d ≤ divHalfEven n' d' := by
  by_contra! hlt
  -- A whole step between the two leaves each half a step off, so they come from one quotient.
  have hstep : (divHalfEven n' d' + 1) * (d * d') ≤ divHalfEven n d * (d * d') :=
    Nat.mul_le_mul_right _ hlt
  have hupper : 2 * (divHalfEven n d * d) * d' ≤ (2 * n + d) * d' :=
    Nat.mul_le_mul_right _ (divHalfEven_mul_le n d)
  have hlower : 2 * n' * d ≤ (2 * (divHalfEven n' d' * d') + d') * d :=
    Nat.mul_le_mul_right _ (le_divHalfEven_mul n' hd')
  have heq : n * d' = n' * d := by
    apply le_antisymm h
    linarith
  have hsame : divHalfEven n d = divHalfEven n' d' := by
    rw [← divHalfEven_mul_right hd', heq, Nat.mul_comm d, divHalfEven_mul_right hd]
  exact hlt.ne' hsame

theorem divHalfEven_le (hd : 0 < d) (h : n ≤ m * d) : divHalfEven n d ≤ m := by
  calc divHalfEven n d ≤ divHalfEven (m * d) d := divHalfEven_mono hd hd (Nat.mul_le_mul_right d h)
    _ = m := divHalfEven_mul_left hd

/-- With the bits above 53 taken off, a carry is the most that rounding comes to. -/
theorem divHalfEven_le_two_pow {k : ℕ} (hd : 0 < d) (h : Nat.log2 (n / d) ≤ k + 52) :
    divHalfEven n (d * 2 ^ k) ≤ 2 ^ 53 := by
  apply divHalfEven_le (Nat.mul_pos hd (Nat.two_pow_pos k))
  have hbits : n / d < 2 ^ (k + 53) :=
    calc n / d < 2 ^ (Nat.log2 (n / d) + 1) := Nat.lt_log2_self
      _ ≤ 2 ^ (k + 53) := Nat.pow_le_pow_right two_pos (by omega)
  rw [Nat.div_lt_iff_lt_mul hd] at hbits
  calc n ≤ 2 ^ (k + 53) * d := hbits.le
    _ = 2 ^ 53 * (d * 2 ^ k) := by ring

end Division

/-! ### Magnitudes -/

theorem roundMagnitude_mono {n n' d d' : ℕ} (hd : 0 < d) (hd' : 0 < d') (h : n * d' ≤ n' * d) :
    roundMagnitude n d ≤ roundMagnitude n' d' := by
  rw [roundMagnitude_eq rfl, roundMagnitude_eq rfl]
  have hunits : n * unitsPerOne * d' ≤ n' * unitsPerOne * d := by
    rw [Nat.mul_right_comm n, Nat.mul_right_comm n']
    exact Nat.mul_le_mul_right _ h
  generalize n * unitsPerOne = u at hunits
  generalize n' * unitsPerOne = u' at hunits
  have hquotient : u / d ≤ u' / d' := by
    rw [Nat.le_div_iff_mul_le hd']
    apply Nat.le_of_mul_le_mul_right _ hd
    calc u / d * d' * d = u / d * d * d' := Nat.mul_right_comm ..
      _ ≤ u * d' := Nat.mul_le_mul_right _ (Nat.div_mul_le_self u d)
      _ ≤ u' * d := hunits
  have hlog : Nat.log2 (u / d) ≤ Nat.log2 (u' / d') := by
    rw [Nat.log2_eq_log_two, Nat.log2_eq_log_two]
    exact Nat.log_mono_right hquotient
  generalize hk : Nat.log2 (u / d) - 52 = k
  generalize hk' : Nat.log2 (u' / d') - 52 = k'
  rcases (show k ≤ k' by omega).eq_or_lt with rfl | hlt
  · apply Nat.add_le_add_left
    apply divHalfEven_mono (Nat.mul_pos hd (Nat.two_pow_pos k)) (Nat.mul_pos hd' (Nat.two_pow_pos k))
    rw [← Nat.mul_assoc, ← Nat.mul_assoc]
    exact Nat.mul_le_mul_right _ hunits
  · -- The one ends with a carry into its next place at most; the other has its leading bit.
    have hupper : divHalfEven u (d * 2 ^ k) ≤ 2 ^ 53 := divHalfEven_le_two_pow hd (by omega)
    have hlower : 2 ^ 52 ≤ divHalfEven u' (d' * 2 ^ k') := two_pow_le_divHalfEven (by omega)
    omega

section Rounded

variable {q r : ℚ} {x : Binary64}

theorem magnitude_rounded_mono (s t : Bool) (h : |q| ≤ |r|) :
    (rounded s q).magnitude ≤ (rounded t r).magnitude := by
  have hcross : q.num.natAbs * r.den ≤ r.num.natAbs * q.den := by
    have hcast : ((q.num.natAbs * r.den : ℕ) : ℚ) ≤ (r.num.natAbs * q.den : ℕ) := by
      rw [Nat.cast_mul, Nat.cast_mul, natAbs_num_eq_abs, natAbs_num_eq_abs, mul_right_comm |r|]
      exact mul_le_mul_of_nonneg_right (mul_le_mul_of_nonneg_right h (Nat.cast_nonneg _))
        (Nat.cast_nonneg _)
    exact_mod_cast hcast
  exact min_le_min_right _ (roundMagnitude_mono q.pos r.pos hcross)

theorem absRat_eq_div (x : Binary64) : x.absRat = unitsOf x.magnitude / unitsPerOne := by
  rw [absRat_eq, unitsPerOne, cast_one_shiftLeft]

theorem absRat_nonneg (x : Binary64) : 0 ≤ x.absRat := by
  rw [absRat_eq]
  positivity

theorem absRat_le_absRat {y : Binary64} (h : x.magnitude ≤ y.magnitude) : x.absRat ≤ y.absRat := by
  rw [absRat_eq, absRat_eq]
  have hunits : (unitsOf x.magnitude : ℚ) ≤ unitsOf y.magnitude :=
    Nat.cast_le.mpr (unitsOf_strictMono.monotone h)
  exact div_le_div_of_nonneg_right hunits (by positivity)

/-- A finite double rounds to itself. -/
theorem magnitude_rounded_absRat (s : Bool) (hx : x.isFinite = true) :
    (rounded s x.absRat).magnitude = x.magnitude := by
  have hfinite : x.magnitude < infinityMagnitude := of_decide_eq_true hx
  show min (roundMagnitude x.absRat.num.natAbs x.absRat.den) infinityMagnitude = x.magnitude
  rw [roundMagnitude_num_den unitsPerOne_pos x.absRat_eq_div, roundMagnitude_unitsOf,
    min_eq_left hfinite.le]

/-- The absolute value of some finite double. -/
def Representable (q : ℚ) : Prop := ∃ x : Binary64, x.isFinite = true ∧ x.absRat = q

/-- Finite, and of some absolute value at most. -/
structure Within (b : ℚ) (x : Binary64) : Prop where
  isFinite : x.isFinite = true
  absRat_le : x.absRat ≤ b

theorem within_rounded (s : Bool) (hr : Representable r) (h : |q| ≤ r) :
    (rounded s q).Within r := by
  obtain ⟨x, hx, rfl⟩ := hr
  have hle : (rounded s q).magnitude ≤ x.magnitude := by
    rw [← abs_of_nonneg x.absRat_nonneg] at h
    exact (magnitude_rounded_mono s s h).trans_eq (magnitude_rounded_absRat s hx)
  have hfinite : x.magnitude < infinityMagnitude := of_decide_eq_true hx
  exact ⟨decide_eq_true (hle.trans_lt hfinite), absRat_le_absRat hle⟩

theorem le_absRat_rounded (s : Bool) (hr : Representable r) (h : r ≤ |q|) :
    r ≤ (rounded s q).absRat := by
  obtain ⟨x, hx, rfl⟩ := hr
  rw [← abs_of_nonneg x.absRat_nonneg] at h
  exact absRat_le_absRat
    ((magnitude_rounded_absRat s hx).symm.trans_le (magnitude_rounded_mono s s h))

theorem absRat_rounded (s : Bool) (h : Representable |q|) :
    (rounded s q).isFinite = true ∧ (rounded s q).absRat = |q| := by
  obtain ⟨hfinite, hle⟩ := within_rounded s h le_rfl
  exact ⟨hfinite, le_antisymm hle (le_absRat_rounded s h le_rfl)⟩

end Rounded

/-! ### Short integers -/

theorem exists_unitsOf_eq : ∀ (k : ℕ) {m : ℕ}, m < 2 ^ 53 → ∃ c, unitsOf c = m * 2 ^ k
  | 0, m, hm => by
    rw [pow_zero, Nat.mul_one]
    refine ⟨m, ?_⟩
    rcases lt_or_ge m (2 ^ 52) with hlt | hge
    · exact unitsOf_of_lt hlt
    · rw [unitsOf_of_le hge, show m / 2 ^ 52 = 1 by omega]
      omega
  | k + 1, m, hm => by
    rcases lt_or_ge m (2 ^ 52) with hlt | hge
    · -- Without a leading one the place is given to the integer.
      obtain ⟨c, hc⟩ := exists_unitsOf_eq k (show 2 * m < 2 ^ 53 by omega)
      exact ⟨c, by rw [hc, pow_succ']; ring⟩
    · refine ⟨(k + 1) * 2 ^ 52 + m, ?_⟩
      rw [unitsOf_of_le (by omega), show ((k + 1) * 2 ^ 52 + m) / 2 ^ 52 - 1 = k + 1 by omega,
        show 2 ^ 52 + ((k + 1) * 2 ^ 52 + m) % 2 ^ 52 = m by omega]

/-- An integer of up to 53 bits is exact in a double, also with `j` of its bits behind the point. -/
theorem representable_div_two_pow {m j : ℕ} (hm : m < 2 ^ 53) (hj : j ≤ 1074) :
    Representable (m / 2 ^ j) := by
  obtain ⟨c, hc⟩ := exists_unitsOf_eq (1074 - j) hm
  have hfinite : c < infinityMagnitude := by
    have hfield : infinityMagnitude / 2 ^ 52 = 2047 := rfl
    rw [← unitsOf_strictMono.lt_iff_lt, hc]
    calc m * 2 ^ (1074 - j) < 2 ^ 53 * 2 ^ (1074 - j) :=
          Nat.mul_lt_mul_of_pos_right hm (Nat.two_pow_pos _)
      _ = 2 ^ (53 + (1074 - j)) := (pow_add 2 53 _).symm
      _ ≤ 2 ^ (infinityMagnitude / 2 ^ 52 + 51) := Nat.pow_le_pow_right two_pos (by omega)
      _ ≤ unitsOf infinityMagnitude := pow_le_unitsOf (by decide)
  refine ⟨⟨false, c, hfinite.trans infinityMagnitude_lt⟩, decide_eq_true hfinite, ?_⟩
  have hsplit : (2 : ℚ) ^ 1074 = 2 ^ (1074 - j) * 2 ^ j := by
    rw [← pow_add, Nat.sub_add_cancel hj]
  rw [absRat_eq, hc, hsplit, Nat.cast_mul, Nat.cast_pow, Nat.cast_ofNat, mul_comm (m : ℚ)]
  exact mul_div_mul_left _ _ (by positivity)

end JustIntonation.Binary64
