/-
JustIntonation/Proofs/Binary64/Nearest.lean

The integer nearest to a double.

A double is an integer itself, or it is so small that all integers about it
are doubles (`exists_natCast_or_lt`).  Either way rounding to an integer is
exact (`toRat_roundEven`), and reading the result as an integer loses nothing
but what a 64-bit integer cannot hold (`toInt64_roundEven`).

Sums and products of finite doubles are their exact values rounded
(`magnitude_add`, `mul_of_isFinite`), so the bounds on rounded values are
bounds on them.  An undefined operand is the result.
-/
import JustIntonation.Proofs.Binary64.Monotone
import Mathlib.Data.Rat.Floor

namespace JustIntonation.Binary64

/-! ### Finite operands -/

section Operations

variable {x y : Binary64}

theorem abs_toRat (x : Binary64) : |x.toRat| = x.absRat := by
  rw [toRat]
  split_ifs
  · rw [abs_neg, abs_of_nonneg x.absRat_nonneg]
  · exact abs_of_nonneg x.absRat_nonneg

theorem toRat_neg (x : Binary64) : (-x).toRat = -x.toRat := by
  show (if !x.negative then -x.absRat else x.absRat) = -(if x.negative then -x.absRat else x.absRat)
  cases x.negative <;> simp

theorem absRat_congr (h : x.magnitude = y.magnitude) : x.absRat = y.absRat :=
  le_antisymm (absRat_le_absRat h.le) (absRat_le_absRat h.ge)

theorem mul_of_isFinite (hx : x.isFinite = true) (hy : y.isFinite = true) :
    x * y = rounded (x.negative != y.negative) (x.absRat * y.absRat) := by
  show mul x y = _
  simp only [mul, isNaN_of_isFinite hx, isNaN_of_isFinite hy, isInfinite_of_isFinite hx,
    isInfinite_of_isFinite hy, Bool.false_eq_true, if_false]

theorem add_of_isFinite (hx : x.isFinite = true) (hy : y.isFinite = true) :
    x + y = if x.toRat + y.toRat = 0 then signedZero (x.negative && y.negative)
      else ofRat (x.toRat + y.toRat) := by
  show add x y = _
  simp only [add, isNaN_of_isFinite hx, isNaN_of_isFinite hy, isInfinite_of_isFinite hx,
    isInfinite_of_isFinite hy, Bool.false_eq_true, if_false]

/-- But for its sign, a sum of zero is no exception. -/
theorem magnitude_add (hx : x.isFinite = true) (hy : y.isFinite = true) :
    (x + y).magnitude = (ofRat (x.toRat + y.toRat)).magnitude := by
  rw [add_of_isFinite hx hy]
  split_ifs with hzero
  · rw [hzero]
    simp [signedZero, ofRat, rounded, ofMagnitude]
  · rfl

theorem within_of_magnitude_eq {r : ℚ} (h : x.magnitude = y.magnitude) (hy : y.Within r) :
    x.Within r := by
  refine ⟨?_, (absRat_congr h).trans_le hy.absRat_le⟩
  rw [isFinite, h]
  exact hy.isFinite

theorem Within.mul {a b r : ℚ} (hx : x.Within a) (hy : y.Within b) (hr : Representable r)
    (h : a * b ≤ r) : (x * y).Within r := by
  rw [mul_of_isFinite hx.isFinite hy.isFinite]
  apply within_rounded _ hr
  rw [abs_of_nonneg (mul_nonneg x.absRat_nonneg y.absRat_nonneg)]
  have hb : 0 ≤ a := x.absRat_nonneg.trans hx.absRat_le
  exact (mul_le_mul hx.absRat_le hy.absRat_le y.absRat_nonneg hb).trans h

end Operations

/-! ### Undefined operands -/

section Undefined

variable {x : Binary64}

theorem isNaN_rounded (negative : Bool) (q : ℚ) : (rounded negative q).isNaN = false :=
  decide_eq_false (Nat.min_le_right _ _).not_gt

theorem isNaN_ofInt (n : ℤ) : (ofInt n).isNaN = false := isNaN_rounded _ _

theorem add_of_isNaN_left (hx : x.isNaN = true) (y : Binary64) : x + y = x := by
  show add x y = x
  rw [add, if_pos hx]

theorem add_of_isNaN_right {y : Binary64} (hx : x.isNaN = false) (hy : y.isNaN = true) :
    x + y = y := by
  show add x y = y
  rw [add, hx, if_neg Bool.false_ne_true, if_pos hy]

theorem mul_of_isNaN_left (hx : x.isNaN = true) (y : Binary64) : x * y = x := by
  show mul x y = x
  rw [mul, if_pos hx]

theorem roundEven_of_not_isFinite (h : x.isFinite = false) : x.roundEven = x := by
  rw [roundEven, mapInteger, h, if_neg Bool.false_ne_true]

end Undefined

/-! ### Integers -/

theorem representable_natCast {n : ℕ} (hn : n < 2 ^ 53) : Representable n := by
  have h := representable_div_two_pow (j := 0) hn (Nat.zero_le _)
  rwa [pow_zero, div_one] at h

/-- Short integers are exact. -/
theorem toRat_ofInt {n : ℤ} (hn : n.natAbs < 2 ^ 53) :
    (ofInt n).isFinite = true ∧ (ofInt n).toRat = n := by
  have habs : |(n : ℚ)| = n.natAbs := by rw [Nat.cast_natAbs, Int.cast_abs]
  have hvalue := absRat_rounded (decide ((n : ℚ) < 0)) (habs ▸ representable_natCast hn)
  refine ⟨hvalue.1, ?_⟩
  show (if decide ((n : ℚ) < 0) then -(rounded _ (n : ℚ)).absRat else (rounded _ (n : ℚ)).absRat) = n
  rw [hvalue.2]
  rcases lt_or_ge (n : ℚ) 0 with hneg | hpos
  · rw [if_pos (decide_eq_true hneg), abs_of_neg hneg, neg_neg]
  · rw [if_neg (by simpa using hpos), abs_of_nonneg hpos]

/-- A positive rational stays between the doubles that it is between. -/
theorem toRat_ofRat_mem {a b q : ℚ} (ha : Representable a) (hb : Representable b) (hq : 0 ≤ q)
    (hlow : a ≤ q) (hhigh : q ≤ b) :
    (ofRat q).isFinite = true ∧ a ≤ (ofRat q).toRat ∧ (ofRat q).toRat ≤ b := by
  have habs : |q| = q := abs_of_nonneg hq
  have hvalue : (ofRat q).toRat = (ofRat q).absRat := by
    have hsign : (ofRat q).negative = false := decide_eq_false hq.not_gt
    rw [toRat, hsign, if_neg Bool.false_ne_true]
  obtain ⟨hfinite, hle⟩ := within_rounded (decide (q < 0)) hb (habs.trans_le hhigh)
  rw [hvalue]
  exact ⟨hfinite, le_absRat_rounded _ ha (hlow.trans_eq habs.symm), hle⟩

/-- A double is an integer, unless it is small. -/
theorem exists_natCast_or_lt (x : Binary64) : (∃ n : ℕ, x.absRat = n) ∨ x.absRat < 2 ^ 52 := by
  rcases lt_or_ge (x.magnitude / 2 ^ 52) 1075 with hlt | hge
  · right
    have hunits := (Nat.cast_lt (α := ℚ)).mpr (unitsOf_lt_pow x.magnitude)
    rw [Nat.cast_pow, Nat.cast_ofNat] at hunits
    rw [absRat_eq, div_lt_iff₀ (by positivity)]
    calc (unitsOf x.magnitude : ℚ) < 2 ^ (x.magnitude / 2 ^ 52 + 52) := hunits
      _ = 2 ^ 52 * 2 ^ (x.magnitude / 2 ^ 52) := by rw [Nat.add_comm, pow_add]
      _ ≤ 2 ^ 52 * 2 ^ 1074 :=
          mul_le_mul_of_nonneg_left (pow_le_pow_right₀ one_le_two (by omega)) (by positivity)
  · left
    obtain ⟨j, hj⟩ := Nat.exists_eq_add_of_le hge
    refine ⟨(2 ^ 52 + x.magnitude % 2 ^ 52) * 2 ^ j, ?_⟩
    rw [absRat_eq, unitsOf_of_le (by omega), show x.magnitude / 2 ^ 52 - 1 = j + 1074 by omega,
      pow_add 2 j, ← Nat.mul_assoc, Nat.cast_mul _ (2 ^ 1074), Nat.cast_pow 2 1074, Nat.cast_ofNat,
      mul_div_cancel_right₀ _ (by positivity)]

/-! ### The nearest integer -/

section Nearest

variable {q : ℚ}

theorem abs_nearestEven (q : ℚ) : |(nearestEven q : ℚ)| = divHalfEven q.num.natAbs q.den := by
  rw [nearestEven]
  split_ifs
  · rw [Int.cast_neg, Int.cast_natCast, abs_neg, Nat.abs_cast]
  · rw [Int.cast_natCast, Nat.abs_cast]

theorem abs_abs_sub_divHalfEven_le (q : ℚ) :
    |(|q|) - divHalfEven q.num.natAbs q.den| ≤ 1 / 2 := by
  have hden : (0 : ℚ) < q.den := Nat.cast_pos.mpr q.pos
  have hhigh : (2 * (divHalfEven q.num.natAbs q.den * q.den) : ℚ) ≤ 2 * (|q| * q.den) + q.den := by
    rw [← natAbs_num_eq_abs]
    exact_mod_cast divHalfEven_mul_le q.num.natAbs q.den
  have hlow : (2 * (|q| * q.den) : ℚ) ≤ 2 * (divHalfEven q.num.natAbs q.den * q.den) + q.den := by
    rw [← natAbs_num_eq_abs]
    exact_mod_cast le_divHalfEven_mul q.num.natAbs q.pos
  rw [abs_le]
  constructor
  · apply le_of_mul_le_mul_right _ hden
    linarith
  · apply le_of_mul_le_mul_right _ hden
    linarith

/-- The nearest integer is off by a half at most. -/
theorem abs_sub_nearestEven_le (q : ℚ) : |q - nearestEven q| ≤ 1 / 2 := by
  have hsize := abs_abs_sub_divHalfEven_le q
  rw [← abs_nearestEven] at hsize
  rcases lt_or_ge q 0 with hneg | hpos
  · have hnonpos : (nearestEven q : ℚ) ≤ 0 := by
      rw [nearestEven, if_pos hneg, Int.cast_neg, Int.cast_natCast]
      exact neg_nonpos.mpr (Nat.cast_nonneg _)
    rwa [abs_of_neg hneg, abs_of_nonpos hnonpos, neg_sub_neg, abs_sub_comm] at hsize
  · have hnonneg : (0 : ℚ) ≤ nearestEven q := by
      rw [nearestEven, if_neg hpos.not_gt, Int.cast_natCast]
      exact Nat.cast_nonneg _
    rwa [abs_of_nonneg hpos, abs_of_nonneg hnonneg] at hsize

/-- Rounding does not pass an integer. -/
theorem le_nearestEven {n : ℤ} (h : n ≤ q) : n ≤ nearestEven q := by
  have hdist := abs_le.mp (abs_sub_nearestEven_le q)
  have hcast : (n : ℚ) < (nearestEven q + 1 : ℤ) := by
    push_cast
    linarith
  exact Int.lt_add_one_iff.mp (by exact_mod_cast hcast)

theorem nearestEven_le {n : ℤ} (h : q ≤ n) : nearestEven q ≤ n := by
  have hdist := abs_le.mp (abs_sub_nearestEven_le q)
  have hcast : (nearestEven q : ℚ) < (n + 1 : ℤ) := by
    push_cast
    linarith
  exact Int.lt_add_one_iff.mp (by exact_mod_cast hcast)

/-- An integer by which there is less than a half is the nearest. -/
theorem nearestEven_eq_of_abs_lt {n : ℤ} (h : |q - n| < 1 / 2) : nearestEven q = n := by
  have hdist := abs_le.mp (abs_sub_nearestEven_le q)
  obtain ⟨hlow, hhigh⟩ := abs_lt.mp h
  have habove : (nearestEven q : ℚ) < (n + 1 : ℤ) := by
    push_cast
    linarith
  have hbelow : (n : ℚ) < (nearestEven q + 1 : ℤ) := by
    push_cast
    linarith
  exact le_antisymm (Int.lt_add_one_iff.mp (by exact_mod_cast habove))
    (Int.lt_add_one_iff.mp (by exact_mod_cast hbelow))

/-- An integer is the nearest to itself. -/
theorem nearestEven_intCast (n : ℤ) : nearestEven n = n :=
  nearestEven_eq_of_abs_lt (by norm_num)

end Nearest

section Doubles

variable {x : Binary64} (hx : x.isFinite = true)
include hx

/-- The integer nearest to a double is a double. -/
theorem representable_nearestEven : Representable |(nearestEven x.toRat : ℚ)| := by
  obtain ⟨n, hn⟩ | hsmall := exists_natCast_or_lt x
  · -- The double is an integer, which is the nearest to itself.
    obtain ⟨k, hk⟩ : ∃ k : ℤ, x.toRat = k := by
      rw [toRat, hn]
      split_ifs
      · exact ⟨-n, by rw [Int.cast_neg, Int.cast_natCast]⟩
      · exact ⟨n, (Int.cast_natCast n).symm⟩
    rw [hk, nearestEven_intCast, ← hk, abs_toRat]
    exact ⟨x, hx, rfl⟩
  · rw [abs_nearestEven]
    apply representable_natCast
    have hdist := abs_abs_sub_divHalfEven_le x.toRat
    have hcast : (divHalfEven x.toRat.num.natAbs x.toRat.den : ℚ) < (2 ^ 53 : ℕ) := by
      rw [abs_toRat, abs_le] at hdist
      push_cast
      linarith
    exact_mod_cast hcast

theorem toRat_roundEven :
    x.roundEven.isFinite = true ∧ x.roundEven.toRat = nearestEven x.toRat := by
  have heq : x.roundEven = rounded x.negative (nearestEven x.toRat) := by
    rw [roundEven, mapInteger, if_pos hx]
  obtain ⟨hfinite, hvalue⟩ := absRat_rounded x.negative (representable_nearestEven hx)
  rw [heq]
  refine ⟨hfinite, ?_⟩
  show (if x.negative then -(rounded _ _).absRat else (rounded _ _).absRat) = _
  rw [hvalue]
  cases hsign : x.negative with
  | true =>
    have hnonpos : x.toRat ≤ (0 : ℤ) := by
      rw [toRat, hsign, if_pos rfl, Int.cast_zero]
      exact neg_nonpos.mpr x.absRat_nonneg
    rw [if_pos rfl, abs_of_nonpos (by exact_mod_cast nearestEven_le hnonpos), neg_neg]
  | false =>
    have hnonneg : (0 : ℤ) ≤ x.toRat := by
      rw [toRat, hsign, if_neg Bool.false_ne_true, Int.cast_zero]
      exact x.absRat_nonneg
    rw [if_neg Bool.false_ne_true, abs_of_nonneg (by exact_mod_cast le_nearestEven hnonneg)]

theorem toInt64_of_toRat_eq {n : ℤ} (h : x.toRat = n) : x.toInt64 = clampInt64 n := by
  rw [toInt64, isNaN_of_isFinite hx, isInfinite_of_isFinite hx]
  simp only [Bool.false_eq_true, if_false]
  congr 1
  rw [toRat] at h
  split_ifs at h ⊢
  · have habs : x.absRat = ((-n : ℤ) : ℚ) := by rw [Int.cast_neg, ← h, neg_neg]
    rw [habs, Rat.floor_intCast, neg_neg]
  · rw [h, Rat.floor_intCast]

theorem toInt64_roundEven : x.roundEven.toInt64 = clampInt64 (nearestEven x.toRat) := by
  obtain ⟨hfinite, hvalue⟩ := toRat_roundEven hx
  exact toInt64_of_toRat_eq hfinite hvalue

/-- Between 64-bit integers a double is rounded to one of those between them. -/
theorem toInt64_roundEven_mem {m n : ℤ} (hm : minInt64 ≤ m) (hn : n ≤ maxInt64)
    (hlow : m ≤ x.toRat) (hhigh : x.toRat ≤ n) :
    m ≤ x.roundEven.toInt64 ∧ x.roundEven.toInt64 ≤ n := by
  have habove := le_nearestEven hlow
  have hbelow := nearestEven_le hhigh
  rw [toInt64_roundEven hx, clampInt64]
  omega

end Doubles

end JustIntonation.Binary64
