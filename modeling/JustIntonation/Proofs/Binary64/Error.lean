/-
JustIntonation/Proofs/Binary64/Error.lean

How far a rounded rational is off.

Among the normal numbers a magnitude has 53 bits of units, however many places
there are behind them, so half a step is one part in `2⁵³` at most of what is
rounded.  Products and quotients of doubles are rounded once, hence this is
their relative error as well (`abs_absRat_rounded_sub_le`).

Main result: an integer that is divided and multiplied back is off by a quarter
at most, if it has fewer than 50 bits (`toRat_mul_div`).
-/
import JustIntonation.Proofs.Binary64.Nearest

namespace JustIntonation.Binary64

/-! ### Units -/

section Units

variable {n d k : ℕ}

/-- The units of a magnitude with a leading bit in front of `k` places, or with a carry into the
next place. -/
theorem unitsOf_add {m : ℕ} (hlow : 2 ^ 52 ≤ m) (hhigh : m ≤ 2 ^ 53) :
    unitsOf (k * 2 ^ 52 + m) = m * 2 ^ k := by
  rcases hhigh.lt_or_eq with hlt | rfl
  · have hfield : (k * 2 ^ 52 + m) / 2 ^ 52 - 1 = k := by omega
    have hfraction : 2 ^ 52 + (k * 2 ^ 52 + m) % 2 ^ 52 = m := by omega
    rw [unitsOf_of_le (by omega), hfield, hfraction]
  · have hfield : (k * 2 ^ 52 + 2 ^ 53) / 2 ^ 52 - 1 = k + 1 := by omega
    have hfraction : 2 ^ 52 + (k * 2 ^ 52 + 2 ^ 53) % 2 ^ 52 = 2 ^ 52 := by omega
    rw [unitsOf_of_le (by omega), hfield, hfraction]
    ring

/-- The units of a fraction are rounded behind their leading 53 bits. -/
theorem unitsOf_roundMagnitude (hd : 0 < d) (h : Nat.log2 (n * unitsPerOne / d) = k + 52) :
    unitsOf (roundMagnitude n d) = divHalfEven (n * unitsPerOne) (d * 2 ^ k) * 2 ^ k := by
  rw [roundMagnitude_eq (by omega : Nat.log2 (n * unitsPerOne / d) - 52 = k)]
  exact unitsOf_add (two_pow_le_divHalfEven h) (divHalfEven_le_two_pow hd h.le)

/-- Of a fraction that is no smaller than the normal numbers, the units are rounded by one part in
`2⁵³` at most. -/
theorem unitsOf_roundMagnitude_bounds (hd : 0 < d) (h : 2 ^ 52 * d ≤ n * unitsPerOne) :
    2 ^ 53 * (unitsOf (roundMagnitude n d) * d) ≤ 2 ^ 53 * (n * unitsPerOne) + n * unitsPerOne ∧
      2 ^ 53 * (n * unitsPerOne) ≤
        2 ^ 53 * (unitsOf (roundMagnitude n d) * d) + n * unitsPerOne := by
  have hquotient : 2 ^ 52 ≤ n * unitsPerOne / d := (Nat.le_div_iff_mul_le hd).mpr h
  have hne : n * unitsPerOne / d ≠ 0 := by omega
  obtain ⟨k, hk⟩ := Nat.exists_eq_add_of_le' ((Nat.le_log2 hne).mpr hquotient)
  have hleading : 2 ^ 52 * (d * 2 ^ k) ≤ n * unitsPerOne := by
    have hbits : 2 ^ (k + 52) ≤ n * unitsPerOne / d := (Nat.le_log2 hne).mp hk.ge
    rw [Nat.le_div_iff_mul_le hd] at hbits
    calc 2 ^ 52 * (d * 2 ^ k) = 2 ^ (k + 52) * d := by ring
      _ ≤ n * unitsPerOne := hbits
  have hunits : unitsOf (roundMagnitude n d) * d
      = divHalfEven (n * unitsPerOne) (d * 2 ^ k) * (d * 2 ^ k) := by
    rw [unitsOf_roundMagnitude hd hk]
    ring
  have hupper := divHalfEven_mul_le (n * unitsPerOne) (d * 2 ^ k)
  have hlower := le_divHalfEven_mul (n * unitsPerOne) (Nat.mul_pos hd (Nat.two_pow_pos k))
  rw [hunits]
  generalize divHalfEven (n * unitsPerOne) (d * 2 ^ k) * (d * 2 ^ k) = rounded at hupper hlower ⊢
  generalize n * unitsPerOne = units at hleading hupper hlower ⊢
  generalize d * 2 ^ k = step at hleading hupper hlower
  omega

end Units

/-! ### Rationals -/

section Rounded

variable {q : ℚ}

/-- A finite value is off by one part in `2⁵³` at most from what it is rounded from, if that is no
smaller than the normal numbers. -/
theorem abs_absRat_rounded_sub_le (s : Bool) (hlow : 2 ^ 52 ≤ |q| * (unitsPerOne : ℚ))
    (hfinite : (rounded s q).isFinite = true) :
    |(rounded s q).absRat - (|q|)| ≤ |q| / 2 ^ 53 := by
  have hmagnitude : (rounded s q).magnitude = roundMagnitude q.num.natAbs q.den := by
    have hlt : min (roundMagnitude q.num.natAbs q.den) infinityMagnitude < infinityMagnitude :=
      of_decide_eq_true hfinite
    exact min_eq_left (lt_of_not_ge fun hge => hlt.ne (min_eq_right hge)).le
  have hden : (0 : ℚ) < q.den := Nat.cast_pos.mpr q.pos
  have hone : (0 : ℚ) < unitsPerOne := Nat.cast_pos.mpr unitsPerOne_pos
  have hnum := natAbs_num_eq_abs q
  have hnormal : 2 ^ 52 * q.den ≤ q.num.natAbs * unitsPerOne := by
    have hcast : ((2 ^ 52 * q.den : ℕ) : ℚ) ≤ (q.num.natAbs * unitsPerOne : ℕ) := by
      push_cast [hnum]
      rw [mul_right_comm]
      exact mul_le_mul_of_nonneg_right hlow hden.le
    exact_mod_cast hcast
  obtain ⟨hupper, hlower⟩ := unitsOf_roundMagnitude_bounds q.pos hnormal
  rw [absRat_eq_div, hmagnitude]
  generalize unitsOf (roundMagnitude q.num.natAbs q.den) = units at hupper hlower
  have hupper' : (2 ^ 53 : ℚ) * (units * q.den) ≤ 2 ^ 53 * (|q| * q.den * unitsPerOne)
      + |q| * q.den * unitsPerOne := by
    rw [← hnum]
    exact_mod_cast hupper
  have hlower' : (2 ^ 53 : ℚ) * (|q| * q.den * unitsPerOne) ≤ 2 ^ 53 * (units * q.den)
      + |q| * q.den * unitsPerOne := by
    rw [← hnum]
    exact_mod_cast hlower
  have hunits : (units : ℚ) * q.den = units / unitsPerOne * (q.den * unitsPerOne) := by
    field_simp
  rw [hunits, mul_assoc |q|] at hupper' hlower'
  have hscale : (0 : ℚ) < q.den * unitsPerOne := mul_pos hden hone
  rw [abs_le]
  constructor
  · apply le_of_mul_le_mul_right _ hscale
    linarith
  · apply le_of_mul_le_mul_right _ hscale
    linarith

end Rounded

/-! ### Multiplying back -/

section MultiplyingBack

variable {x y : Binary64} {a d : ℕ}

theorem div_of_isFinite (hx : x.isFinite = true) (hy : y.isFinite = true)
    (hzero : y.isZero = false) :
    x / y = rounded (x.negative != y.negative) (x.absRat / y.absRat) := by
  show div x y = _
  simp only [div, isNaN_of_isFinite hx, isNaN_of_isFinite hy, isInfinite_of_isFinite hx,
    isInfinite_of_isFinite hy, hzero, Bool.false_eq_true, if_false]

theorem absRat_ofInt {n : ℤ} (hn : n.natAbs < 2 ^ 53) : (ofInt n).absRat = n.natAbs := by
  rw [← abs_toRat, (toRat_ofInt hn).2, Nat.cast_natAbs, Int.cast_abs]

theorem negative_ofInt (n : ℤ) : (ofInt n).negative = decide (n < 0) := by
  show decide ((n : ℚ) < 0) = _
  exact decide_eq_decide.mpr Int.cast_lt_zero

/-- A finite value rounds to itself. -/
theorem rounded_absRat (hx : x.isFinite = true) : rounded x.negative x.absRat = x := by
  have hmagnitude := magnitude_rounded_absRat x.negative hx
  obtain ⟨negative, magnitude, bound⟩ := x
  simp only [rounded, ofMagnitude] at hmagnitude ⊢
  simp only [hmagnitude]

theorem ofInt_one_mul (hx : x.isFinite = true) : ofInt 1 * x = x := by
  have hone : (ofInt 1).absRat = 1 := by
    rw [absRat_ofInt (by decide)]
    norm_num
  have hsign : (ofInt 1).negative = false := by
    rw [negative_ofInt]
    decide
  rw [mul_of_isFinite (toRat_ofInt (by decide)).1 hx, hone, one_mul, hsign, Bool.false_bne,
    rounded_absRat hx]

/-- A quarter off an integer is a double. -/
theorem representable_quarters {n : ℕ} (hn : n < 2 ^ 53) : Representable (n / 4) := by
  have h := representable_div_two_pow (m := n) (j := 2) hn (by norm_num)
  norm_num at h
  exact h

section Quotient

variable (hd : 0 < d)
include hd

theorem isFinite_rounded_div (s : Bool) (ha : a < 2 ^ 53) :
    (rounded s (a / d)).isFinite = true := by
  refine (within_rounded s (representable_natCast ha) ?_).isFinite
  rw [abs_of_nonneg (by positivity)]
  exact div_le_self (Nat.cast_nonneg a) (by exact_mod_cast hd)

/-- A rounded quotient, multiplied back without rounding. -/
theorem abs_mul_absRat_sub_le (s : Bool) (ha : a < 2 ^ 53) (hd' : d < 2 ^ 32) :
    |d * (rounded s (a / d)).absRat - a| ≤ a / 2 ^ 53 := by
  have hdpos : (0 : ℚ) < d := by exact_mod_cast hd
  have habs : |(a / d : ℚ)| = a / d := abs_of_nonneg (by positivity)
  rcases Nat.eq_zero_or_pos a with rfl | hpos
  · have hzero : (rounded s ((0 : ℕ) / d)).absRat = 0 := by
      rw [(absRat_rounded s (by simpa using representable_natCast (n := 0) (by norm_num))).2]
      simp
    rw [hzero]
    simp
  · have hnormal : (2 : ℚ) ^ 52 ≤ |(a / d : ℚ)| * unitsPerOne := by
      have hone : (1 : ℚ) ≤ a := by exact_mod_cast hpos
      have hlt : (d : ℚ) ≤ 2 ^ 32 := by exact_mod_cast hd'.le
      have hunits : (2 : ℚ) ^ 84 ≤ unitsPerOne := by
        rw [unitsPerOne, cast_one_shiftLeft]
        exact pow_le_pow_right₀ one_le_two (by norm_num)
      rw [habs, div_mul_eq_mul_div, le_div_iff₀ hdpos]
      calc (2 : ℚ) ^ 52 * d ≤ 2 ^ 52 * 2 ^ 32 := by gcongr
        _ = 1 * 2 ^ 84 := by norm_num
        _ ≤ a * unitsPerOne := by gcongr
    have herror := abs_absRat_rounded_sub_le s hnormal (isFinite_rounded_div hd s ha)
    rw [habs] at herror
    calc |d * (rounded s (a / d)).absRat - a|
        = |d * ((rounded s (a / d)).absRat - a / d)| := by
          rw [mul_sub, mul_div_cancel₀ _ hdpos.ne']
      _ = d * |(rounded s (a / d)).absRat - a / d| := by rw [abs_mul, abs_of_pos hdpos]
      _ ≤ d * (a / d / 2 ^ 53) := by gcongr
      _ = a / 2 ^ 53 := by field_simp

/-- A rounded quotient, multiplied back and rounded again. -/
theorem abs_absRat_mul_sub_le (s t : Bool) (ha : a < 2 ^ 50) (hd' : d < 2 ^ 32) :
    (rounded t (d * (rounded s (a / d)).absRat)).isFinite = true ∧
      |(rounded t (d * (rounded s (a / d)).absRat)).absRat - a| ≤ 1 / 4 := by
  have herror := abs_mul_absRat_sub_le hd s (by omega : a < 2 ^ 53) hd'
  have hsmall : (a : ℚ) / 2 ^ 53 ≤ 1 / 4 := by
    have hlt : (a : ℚ) ≤ 2 ^ 50 := by exact_mod_cast ha.le
    rw [div_le_iff₀ (by positivity)]
    exact hlt.trans (by norm_num)
  obtain ⟨hlow, hhigh⟩ := abs_le.mp (herror.trans hsmall)
  have habs : |d * (rounded s (a / d)).absRat| = d * (rounded s (a / d)).absRat :=
    abs_of_nonneg (mul_nonneg (Nat.cast_nonneg d) (absRat_nonneg _))
  obtain ⟨hfinite, hle⟩ := within_rounded t
    (representable_quarters (n := 4 * a + 1) (by omega)) (q := d * (rounded s (a / d)).absRat)
    (by rw [habs]; push_cast; linarith)
  refine ⟨hfinite, abs_le.mpr ⟨?_, ?_⟩⟩
  · rcases Nat.eq_zero_or_pos a with rfl | hpos
    · have hnonneg := absRat_nonneg (rounded t (d * (rounded s ((0 : ℕ) / d)).absRat))
      rw [Nat.cast_zero] at hnonneg ⊢
      linarith
    · have hge := le_absRat_rounded t
        (representable_quarters (n := 4 * a - 1) (by omega)) (q := d * (rounded s (a / d)).absRat)
        (by rw [habs, Nat.cast_sub (by omega)]; push_cast; linarith)
      rw [Nat.cast_sub (by omega)] at hge
      push_cast at hge
      linarith
  · push_cast at hle
    linarith

end Quotient

theorem ofInt_div_ofInt {n : ℤ} (hd : 0 < d) (hn : n.natAbs < 2 ^ 53) (hd' : d < 2 ^ 53) :
    ofInt n / ofInt d = rounded (decide (n < 0)) (n.natAbs / d) := by
  have hd53 : (d : ℤ).natAbs < 2 ^ 53 := hd'
  have habs : (ofInt d).absRat = d := absRat_ofInt hd53
  have hnonzero : (ofInt d).isZero = false := by
    rw [Bool.eq_false_iff]
    intro hzero
    rw [absRat_of_isZero hzero, eq_comm, Nat.cast_eq_zero] at habs
    exact hd.ne' habs
  rw [div_of_isFinite (toRat_ofInt hn).1 (toRat_ofInt hd53).1 hnonzero, negative_ofInt,
    negative_ofInt, decide_eq_false (by omega : ¬ (d : ℤ) < 0), Bool.bne_false, habs,
    absRat_ofInt hn]

/-- An integer of fewer than 50 bits that is divided and multiplied back is off by a quarter at
most. -/
theorem toRat_mul_div {n : ℤ} (hd : 0 < d) (hn : n.natAbs < 2 ^ 50) (hd' : d < 2 ^ 32) :
    (ofInt d * (ofInt n / ofInt d)).isFinite = true ∧
      |(ofInt d * (ofInt n / ofInt d)).toRat - n| ≤ 1 / 4 := by
  have hd53 : (d : ℤ).natAbs < 2 ^ 53 := by omega
  have hmul : ofInt d * (ofInt n / ofInt d)
      = rounded (decide (n < 0)) (d * (rounded (decide (n < 0)) (n.natAbs / d)).absRat) := by
    rw [ofInt_div_ofInt hd (by omega) (by omega),
      mul_of_isFinite (toRat_ofInt hd53).1 (isFinite_rounded_div hd _ (by omega)), negative_ofInt,
      decide_eq_false (by omega : ¬ (d : ℤ) < 0), Bool.false_bne, absRat_ofInt hd53]
    rfl
  obtain ⟨hfinite, herror⟩ :=
    abs_absRat_mul_sub_le hd (decide (n < 0)) (decide (n < 0)) hn hd'
  rw [hmul]
  refine ⟨hfinite, ?_⟩
  show |(if decide (n < 0) then -(rounded _ _).absRat else (rounded _ _).absRat) - (n : ℚ)| ≤ 1 / 4
  rw [Nat.cast_natAbs] at herror ⊢
  rcases lt_or_ge n 0 with hneg | hpos
  · rw [abs_of_neg hneg] at herror ⊢
    rw [if_pos (decide_eq_true hneg), neg_sub_left, abs_neg, add_comm, ← sub_neg_eq_add]
    exact_mod_cast herror
  · rw [abs_of_nonneg hpos] at herror ⊢
    rw [if_neg (by simpa using hpos)]
    exact herror

end MultiplyingBack

end JustIntonation.Binary64
