/-
JustIntonation/Proofs/Binary64/Shortest.lean

The shortest decimal of a double is read as that double.

The search accepts only decimals that round to the double, and behind it stands
the exact expansion, which does so as well (`roundsTo_shortest`).  A reader
rounds the decimal that it finds; the exponents that it does not look into are
those of decimals that round to zero or to infinity (`ofDecimal_of_roundsTo`).

Main result: a positive finite double is what its shortest decimal is read as,
in whatever terms the decimal is written (`ofDecimal_of_toRat_eq`).
-/
import JustIntonation.Binary64.Reading
import JustIntonation.Binary64.Shortest
import JustIntonation.Proofs.Binary64.Rounding
import Mathlib.Data.List.TakeWhile
import Mathlib.Tactic.FieldSimp
import Mathlib.Tactic.NormNum

namespace JustIntonation

/-! ### Decimals -/

namespace Decimal

theorem toRat_pos {d : Decimal} (h : d.significand ≠ 0) : 0 < d.toRat :=
  mul_pos (Nat.cast_pos.mpr (Nat.pos_of_ne_zero h)) (by positivity)

/-- The trailing zeros of a number are a power of ten that divides it. -/
theorem pow_trailingZeros_dvd (n : ℕ) :
    10 ^ ((digits n).reverse.takeWhile (· = '0')).length ∣ n := by
  have hall : ∀ c ∈ (digits n).reverse.takeWhile (· = '0'), c = '0' :=
    fun c hc => of_decide_eq_true (List.mem_takeWhile_imp (p := (· = '0')) hc)
  set zeros := (digits n).reverse.takeWhile (· = '0') with hzeros
  have hreplicate : zeros = List.replicate zeros.length '0' :=
    List.eq_replicate_iff.mpr ⟨rfl, hall⟩
  have hdigits : digits n
      = ((digits n).reverse.dropWhile (· = '0')).reverse ++ List.replicate zeros.length '0' := by
    rw [← List.reverse_replicate, ← hreplicate, ← List.reverse_append, hzeros,
      List.takeWhile_append_dropWhile, List.reverse_reverse]
  have hvalue : Nat.ofDigitChars 10 (digits n) 0 = n := Nat.ofDigitChars_ten_toDigits
  rw [hdigits, Nat.ofDigitChars_append, Nat.ofDigitChars_replicate_zero] at hvalue
  exact ⟨_, hvalue.symm⟩

theorem toRat_stripZeros (d : Decimal) : d.stripZeros.toRat = d.toRat := by
  simp only [stripZeros]
  split_ifs with hzero
  · rfl
  · obtain ⟨m, hm⟩ := pow_trailingZeros_dvd d.significand
    generalize ((digits d.significand).reverse.takeWhile (· = '0')).length = zeros at hm ⊢
    have hquotient : d.significand / Nat.pow 10 zeros = m := by
      rw [hm]
      exact Nat.mul_div_cancel_left m (by positivity)
    rw [toRat, toRat, hquotient, zpow_add₀ (by norm_num), zpow_natCast, hm]
    push_cast
    ring

theorem significand_stripZeros_ne_zero {d : Decimal} (h : d.significand ≠ 0) :
    d.stripZeros.significand ≠ 0 := by
  intro hzero
  have hpos := toRat_pos h
  rw [← toRat_stripZeros, toRat, hzero, Nat.cast_zero, zero_mul] at hpos
  exact lt_irrefl _ hpos

end Decimal

namespace Binary64

/-! ### The search -/

section Search

variable {c : ℕ} {q : ℚ} {d : Decimal}

/-- A decimal is positive and rounds to a magnitude. -/
structure Reads (c : ℕ) (d : Decimal) : Prop where
  ne_zero : d.significand ≠ 0
  rounds : roundsTo c d.toRat = true

theorem reads_of_nearestOnGrid? {e : ℤ} (h : nearestOnGrid? c q e = some d) : Reads c d := by
  simp only [nearestOnGrid?] at h
  split at h
  case h_1 low high =>
    rw [Bool.and_eq_true, bne_iff_ne] at low
    obtain rfl := Option.some.inj h
    split_ifs
    · exact ⟨low.1, low.2⟩
    · exact ⟨Nat.succ_ne_zero _, high⟩
  case h_2 low high =>
    rw [Bool.and_eq_true, bne_iff_ne] at low
    obtain rfl := Option.some.inj h
    exact ⟨low.1, low.2⟩
  case h_3 low high =>
    obtain rfl := Option.some.inj h
    exact ⟨Nat.succ_ne_zero _, high⟩
  case h_4 => cases h

theorem reads_of_shortestFrom {top : ℤ} {fuel : ℕ} : ∀ {count : ℕ},
    shortestFrom c q top count fuel = some d → Reads c d := by
  induction fuel with
  | zero => exact nofun
  | succ fuel ih =>
    intro count h
    rw [shortestFrom] at h
    split at h
    · rename_i found hfound
      obtain rfl := Option.some.inj h
      exact reads_of_nearestOnGrid? hfound
    · exact ih h

/-- The exact expansion of units is their rational. -/
theorem toRat_exactDecimal (units : ℕ) : (exactDecimal units).toRat = units / unitsPerOne := by
  obtain ⟨k, hk⟩ : ∃ k, k = 1074 := ⟨_, rfl⟩
  have hplaces : (-1074 : ℤ) = -(k : ℤ) := by omega
  have hfives : ((Nat.pow 5 k : ℕ) : ℚ) = 5 ^ k := Nat.cast_pow 5 k
  have hten : (10 : ℚ) ^ k = 5 ^ k * 2 ^ k := by
    rw [← mul_pow]
    norm_num
  rw [exactDecimal, Decimal.toRat, unitsPerOne, ← hk, hplaces, Nat.cast_mul, hfives, zpow_neg,
    zpow_natCast, hten, cast_one_shiftLeft]
  field_simp

theorem reads_exactDecimal (hc : 0 < c) : Reads c (exactDecimal (unitsOf c)) := by
  have hunits : 0 < unitsOf c := by
    rw [← unitsOf_zero]
    exact unitsOf_strictMono hc
  have hvalue := toRat_exactDecimal (unitsOf c)
  constructor
  · intro hzero
    rw [Decimal.toRat, hzero, Nat.cast_zero, zero_mul, eq_comm, div_eq_zero_iff] at hvalue
    rcases hvalue with hvalue | hvalue
    · exact hunits.ne' (Nat.cast_eq_zero.mp hvalue)
    · exact unitsPerOne_pos.ne' (Nat.cast_eq_zero.mp hvalue)
  · rw [roundsTo, decide_eq_true_eq, roundMagnitude_num_den unitsPerOne_pos hvalue,
      roundMagnitude_unitsOf]

/-- The shortest decimal of a magnitude above zero rounds to it. -/
theorem reads_shortest (hc : 0 < c) : Reads c (shortest c) := by
  have hstrip {d : Decimal} (h : Reads c d) : Reads c d.stripZeros :=
    ⟨Decimal.significand_stripZeros_ne_zero h.ne_zero, by
      rw [Decimal.toRat_stripZeros]
      exact h.rounds⟩
  rw [shortest]
  apply hstrip
  cases hfound : shortestFrom c (mkRat (unitsOf c) (1 <<< 1074))
      (Decimal.leading (mkRat (unitsOf c) (1 <<< 1074))) 1 17 with
  | none => exact reads_exactDecimal hc
  | some d => exact reads_of_shortestFrom hfound

end Search

/-! ### Reading a decimal -/

section Reading

variable {x : Binary64}

/-- The number of digits is that of the power of ten that a number is below. -/
theorem pow_length_digits {n : ℕ} (hn : n ≠ 0) :
    (10 : ℚ) ^ ((Nat.toDigits 10 n).length - 1 : ℤ) ≤ n ∧
      (n : ℚ) < 10 ^ ((Nat.toDigits 10 n).length : ℤ) := by
  obtain ⟨k, hk⟩ := Nat.exists_eq_add_of_le' (Nat.length_toDigits_pos (b := 10) (n := n))
  have hhigh : n < 10 ^ (k + 1) :=
    (Nat.length_toDigits_le_iff (by decide) k.succ_pos).mp hk.le
  have hlow : 10 ^ k ≤ n := by
    rcases Nat.eq_zero_or_pos k with rfl | hpos
    · exact Nat.one_le_iff_ne_zero.mpr hn
    · by_contra hlt
      have hlength := (Nat.length_toDigits_le_iff (by decide) hpos).mpr (Nat.lt_of_not_le hlt)
      omega
  have hwidth : ((k + 1 : ℕ) : ℤ) - 1 = (k : ℤ) := by omega
  rw [hk, hwidth, zpow_natCast, zpow_natCast]
  exact ⟨by exact_mod_cast hlow, by exact_mod_cast hhigh⟩

/-- A decimal lies between two powers of ten that its exponent and its width give. -/
theorem pow_width_bounds {n : ℕ} (hn : n ≠ 0) (exponent : ℤ) :
    (10 : ℚ) ^ (exponent + (Nat.toDigits 10 n).length - 1) ≤ n * 10 ^ exponent ∧
      n * (10 : ℚ) ^ exponent < 10 ^ (exponent + (Nat.toDigits 10 n).length) := by
  obtain ⟨hlow, hhigh⟩ := pow_length_digits hn
  have hten : (0 : ℚ) < 10 ^ exponent := by positivity
  rw [add_sub_assoc, add_comm exponent, add_comm exponent, zpow_add₀ (by norm_num),
    zpow_add₀ (by norm_num)]
  exact ⟨mul_le_mul_of_nonneg_right hlow hten.le, mul_lt_mul_of_pos_right hhigh hten⟩

/-- A decimal of a very large exponent rounds past all finite values. -/
theorem infinityMagnitude_le_of_width {n : ℕ} (hn : n ≠ 0) {exponent : ℤ}
    (h : 400 < exponent + (Nat.toDigits 10 n).length) :
    infinityMagnitude ≤ roundMagnitude (n * (10 : ℚ) ^ exponent).num.natAbs
      (n * (10 : ℚ) ^ exponent).den :=
  infinityMagnitude_le_of_le <|
    calc (10 : ℚ) ^ (4 * 100) = 10 ^ ((4 * 100 : ℕ) : ℤ) := (zpow_natCast ..).symm
      _ ≤ 10 ^ (exponent + (Nat.toDigits 10 n).length - 1) :=
        zpow_le_zpow_right₀ (by norm_num) (by omega)
      _ ≤ n * 10 ^ exponent := (pow_width_bounds hn exponent).1

/-- A decimal of a very small exponent rounds to zero. -/
theorem roundMagnitude_eq_zero_of_width {n : ℕ} (hn : n ≠ 0) {exponent : ℤ}
    (h : exponent + (Nat.toDigits 10 n).length < -400) :
    roundMagnitude (n * (10 : ℚ) ^ exponent).num.natAbs (n * (10 : ℚ) ^ exponent).den = 0 := by
  have hvalue : n * (10 : ℚ) ^ exponent * 10 ^ (4 * 100) < 1 :=
    calc n * (10 : ℚ) ^ exponent * 10 ^ (4 * 100)
        < 10 ^ (exponent + (Nat.toDigits 10 n).length) * 10 ^ (4 * 100) :=
          mul_lt_mul_of_pos_right (pow_width_bounds hn exponent).2 (by positivity)
      _ = 10 ^ (exponent + (Nat.toDigits 10 n).length + (4 * 100 : ℕ)) := by
        rw [zpow_add₀ (by norm_num) _ ((4 * 100 : ℕ) : ℤ), zpow_natCast 10 (4 * 100)]
      _ ≤ 10 ^ (0 : ℤ) := zpow_le_zpow_right₀ (by norm_num) (by omega)
      _ = 1 := zpow_zero _
  exact roundMagnitude_eq_zero_of_lt (by positivity) hvalue

/-- A decimal that rounds to a positive finite value is read as that value. -/
theorem ofDecimal_of_roundsTo (hsign : x.negative = false) (hfinite : x.isFinite = true)
    (hzero : x.isZero = false) {digits : ℕ} {exponent : ℤ}
    (h : roundsTo x.magnitude (digits * (10 : ℚ) ^ exponent) = true) :
    ofDecimal false digits exponent = x := by
  have hlt : x.magnitude < infinityMagnitude := of_decide_eq_true hfinite
  have hpos : x.magnitude ≠ 0 := of_decide_eq_false hzero
  have hround : roundMagnitude (digits * (10 : ℚ) ^ exponent).num.natAbs
      (digits * (10 : ℚ) ^ exponent).den = x.magnitude := of_decide_eq_true h
  have hdigits : digits ≠ 0 := by
    rintro rfl
    rw [Nat.cast_zero, zero_mul, Rat.num_zero, Int.natAbs_zero, roundMagnitude_zero] at hround
    exact hpos hround.symm
  simp only [ofDecimal, if_neg hdigits]
  split_ifs with hlarge hsmall
  · have hbeyond := infinityMagnitude_le_of_width hdigits hlarge
    omega
  · have hnothing := roundMagnitude_eq_zero_of_width hdigits hsmall
    omega
  · obtain ⟨negative, magnitude, bound⟩ := x
    simp only at hsign hround hlt
    simp only [rounded, ofMagnitude, hround, hsign, Nat.min_eq_left hlt.le]

/-- A positive finite value is what its shortest decimal is read as, in whatever terms that is
written. -/
theorem ofDecimal_of_toRat_eq (hsign : x.negative = false) (hfinite : x.isFinite = true)
    (hzero : x.isZero = false) {digits : ℕ} {exponent : ℤ}
    (h : digits * (10 : ℚ) ^ exponent = (shortest x.magnitude).toRat) :
    ofDecimal false digits exponent = x := by
  apply ofDecimal_of_roundsTo hsign hfinite hzero
  rw [h]
  exact (reads_shortest (Nat.pos_of_ne_zero (of_decide_eq_false hzero))).rounds

end Reading

end Binary64

end JustIntonation
