/-
JustIntonation/Proofs/Binary64/Value.lean

Finite doubles and the rationals they encode.

The encoding of a finite double is a sign, an exponent field and a fraction,
and `encodedValue` reads these as the format has them: the fraction stands
behind a leading one, scaled by the exponent, or behind none in the lowest
field.  `toRat` gives that very rational, by way of units of `2⁻¹⁰⁷⁴`
(`toRat_eq_encodedValue`).

More units is more magnitude (`unitsOf_strictMono`), across the fields as well
as within one.  Hence ranks, which are compared without a look at the fields,
stand in the order of the values (`toRat_lt_iff`).
-/
import JustIntonation.Binary64.Arithmetic
import Mathlib.Algebra.Order.Field.Power
import Mathlib.Data.Rat.Cast.Order
import Mathlib.Tactic.Positivity
import Mathlib.Tactic.Ring

namespace JustIntonation.Binary64

/-! ### Units -/

theorem unitsOf_of_lt {c : ℕ} (h : c < 2 ^ 52) : unitsOf c = c := by
  have hfield : c / 2 ^ 52 = 0 := Nat.div_eq_of_lt h
  rw [unitsOf, Nat.shiftRight_eq_div_pow, hfield]
  simp

theorem unitsOf_of_le {c : ℕ} (h : 2 ^ 52 ≤ c) :
    unitsOf c = (2 ^ 52 + c % 2 ^ 52) * 2 ^ (c / 2 ^ 52 - 1) := by
  have hrest : c - (c / 2 ^ 52 - 1) * 2 ^ 52 = 2 ^ 52 + c % 2 ^ 52 := by omega
  simp only [unitsOf, Nat.shiftRight_eq_div_pow, Nat.shiftLeft_eq]
  rw [hrest]

theorem unitsOf_lt_pow (c : ℕ) : unitsOf c < 2 ^ (c / 2 ^ 52 + 52) := by
  rcases lt_or_ge c (2 ^ 52) with h | h
  · rw [unitsOf_of_lt h, Nat.div_eq_of_lt h]
    exact h
  · have hfield : c / 2 ^ 52 + 52 = 53 + (c / 2 ^ 52 - 1) := by omega
    have hfraction : 2 ^ 52 + c % 2 ^ 52 < 2 ^ 53 := by omega
    rw [unitsOf_of_le h, hfield, pow_add]
    exact Nat.mul_lt_mul_of_pos_right hfraction (by positivity)

theorem pow_le_unitsOf {c : ℕ} (h : 2 ^ 52 ≤ c) : 2 ^ (c / 2 ^ 52 + 51) ≤ unitsOf c := by
  have hfield : c / 2 ^ 52 + 51 = 52 + (c / 2 ^ 52 - 1) := by omega
  rw [unitsOf_of_le h, hfield, pow_add]
  exact Nat.mul_le_mul_right _ (Nat.le_add_right _ _)

/-- More units is more magnitude: within a field the fraction decides, and every value of a
field lies below all values of the next. -/
theorem unitsOf_strictMono : StrictMono unitsOf := by
  intro c d hlt
  rcases (Nat.div_le_div_right hlt.le : c / 2 ^ 52 ≤ d / 2 ^ 52).lt_or_eq with hfield | hfield
  · calc unitsOf c < 2 ^ (c / 2 ^ 52 + 52) := unitsOf_lt_pow c
      _ ≤ 2 ^ (d / 2 ^ 52 + 51) := Nat.pow_le_pow_right two_pos (by omega)
      _ ≤ unitsOf d := pow_le_unitsOf (by omega)
  · rcases lt_or_ge c (2 ^ 52) with hc | hc
    · rw [unitsOf_of_lt hc, unitsOf_of_lt (by omega)]
      exact hlt
    · rw [unitsOf_of_le hc, unitsOf_of_le (hc.trans hlt.le), hfield]
      exact Nat.mul_lt_mul_of_pos_right (by omega) (by positivity)

@[simp] theorem unitsOf_zero : unitsOf 0 = 0 := unitsOf_of_lt (by norm_num)

/-! ### Values -/

section Kinds

variable {x : Binary64}

theorem isFinite_iff : x.isFinite = true ↔ x.isNaN = false ∧ x.isInfinite = false := by
  simp only [isFinite, isNaN, isInfinite, decide_eq_true_eq, decide_eq_false_iff_not]
  omega

theorem isNaN_of_isFinite (h : x.isFinite = true) : x.isNaN = false := (isFinite_iff.mp h).1

theorem isInfinite_of_isFinite (h : x.isFinite = true) : x.isInfinite = false :=
  (isFinite_iff.mp h).2

theorem isFinite_of_isNaN (h : x.isNaN = true) : x.isFinite = false := by
  rw [Bool.eq_false_iff]
  intro hfinite
  rw [isNaN_of_isFinite hfinite] at h
  cases h

end Kinds

theorem cast_one_shiftLeft (k : ℕ) : ((1 <<< k : ℕ) : ℚ) = 2 ^ k := by
  rw [Nat.one_shiftLeft, Nat.cast_pow, Nat.cast_ofNat]

theorem absRat_eq (x : Binary64) : x.absRat = unitsOf x.magnitude / 2 ^ 1074 := by
  rw [absRat, Rat.mkRat_eq_div, cast_one_shiftLeft, Int.cast_natCast]

theorem absRat_of_isZero {x : Binary64} (h : x.isZero = true) : x.absRat = 0 := by
  rw [isZero, decide_eq_true_eq] at h
  rw [absRat_eq, h, unitsOf_zero, Nat.cast_zero, zero_div]

/-- The rational that a finite double encodes. -/
def encodedValue (x : Binary64) : ℚ :=
  let field : ℕ := x.magnitude / 2 ^ 52
  let fraction : ℕ := x.magnitude % 2 ^ 52
  let size : ℚ :=
    if field = 0 then fraction * 2 ^ (-1074 : ℤ) else (2 ^ 52 + fraction) * 2 ^ (field - 1075 : ℤ)
  if x.negative then -size else size

theorem toRat_eq_encodedValue (x : Binary64) : x.toRat = x.encodedValue := by
  have hsize : x.absRat = if x.magnitude / 2 ^ 52 = 0 then
      (x.magnitude % 2 ^ 52 : ℕ) * (2 : ℚ) ^ (-1074 : ℤ)
      else (2 ^ 52 + (x.magnitude % 2 ^ 52 : ℕ)) * 2 ^ ((x.magnitude / 2 ^ 52 : ℕ) - 1075 : ℤ) := by
    rw [absRat_eq]
    split_ifs with hfield
    · have hlt : x.magnitude < 2 ^ 52 := by omega
      rw [unitsOf_of_lt hlt, Nat.mod_eq_of_lt hlt, zpow_neg, div_eq_mul_inv]
      rfl
    · have hexponent : ((x.magnitude / 2 ^ 52 : ℕ) - 1075 : ℤ) =
          (x.magnitude / 2 ^ 52 - 1 : ℕ) - (1074 : ℕ) := by omega
      rw [unitsOf_of_le (by omega), hexponent, zpow_sub₀ two_ne_zero, zpow_natCast, zpow_natCast,
        Nat.cast_mul, Nat.cast_add, Nat.cast_pow, Nat.cast_pow, Nat.cast_ofNat, mul_div_assoc]
  rw [toRat, encodedValue, hsize]

/-- Ranks stand in the order of the values. -/
theorem toRat_lt_iff {x y : Binary64} : x.toRat < y.toRat ↔ x.rank < y.rank := by
  have hvalue (x : Binary64) : x.toRat =
      ((if x.negative then -(unitsOf x.magnitude : ℤ) else unitsOf x.magnitude : ℤ) : ℚ)
        / 2 ^ 1074 := by
    rw [toRat, absRat_eq]
    split_ifs
    · rw [Int.cast_neg, Int.cast_natCast, neg_div]
    · rw [Int.cast_natCast]
  have hxy := unitsOf_strictMono.lt_iff_lt (a := x.magnitude) (b := y.magnitude)
  have hyx := unitsOf_strictMono.lt_iff_lt (a := y.magnitude) (b := x.magnitude)
  have hx := unitsOf_strictMono.lt_iff_lt (a := 0) (b := x.magnitude)
  have hy := unitsOf_strictMono.lt_iff_lt (a := 0) (b := y.magnitude)
  rw [unitsOf_zero] at hx hy
  rw [hvalue, hvalue, div_lt_div_iff_of_pos_right (by positivity), Int.cast_lt, rank, rank]
  cases x.negative <;> cases y.negative <;> simp only [Bool.false_eq_true, if_true, if_false] <;>
    omega

end JustIntonation.Binary64
