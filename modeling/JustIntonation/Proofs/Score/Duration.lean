/-
JustIntonation/Proofs/Score/Duration.lean

A duration is written with the fewest note values there are for it.

`fill` gives up as soon as too many values are taken.  Without that limit it
takes greedily from the longest value on, and it succeeds exactly if what it
takes is the whole duration and within the limit (`fill_eq_some`).

Counted in the shortest value, each of the values is a power of two, and
`fewest m k` is the number of powers up to `2 ^ m` that make up `k`: as many
of the largest as fit, and one for each binary one of the rest
(`fewest_eq`).  It is taken from the lowest digit up, where a carry can only
save values, so that sums need no more values than their terms together
(`fewest_add_le`); hence no list of values is shorter (`fewest_le_length`),
and the greedy one is exactly as long (`length_greedy`).

Main result: which durations can be written, and how (`ofDuration_written`).
-/
import JustIntonation.Score.Duration
import Mathlib.Algebra.BigOperators.Group.List.Basic
import Mathlib.Algebra.Ring.Parity
import Mathlib.Algebra.Order.Floor.Semifield
import Mathlib.Data.Nat.Digits.Defs
import Mathlib.Data.Nat.Factorization.Basic
import Mathlib.Data.Rat.Floor
import Mathlib.Tactic.FieldSimp
import Mathlib.Tactic.Linarith
import Mathlib.Tactic.LinearCombination

namespace JustIntonation.Score

/-- The beats that tied note values last. -/
def totalBeats (vs : List ℕ) : ℚ := (vs.map beats).sum

@[simp] theorem totalBeats_nil : totalBeats [] = 0 := rfl

@[simp] theorem totalBeats_cons (v : ℕ) (vs : List ℕ) :
    totalBeats (v :: vs) = beats v + totalBeats vs := by
  simp [totalBeats]

@[simp] theorem totalBeats_append (vs ws : List ℕ) :
    totalBeats (vs ++ ws) = totalBeats vs + totalBeats ws := by
  simp [totalBeats]

@[simp] theorem totalBeats_replicate (count v : ℕ) :
    totalBeats (List.replicate count v) = count * beats v := by
  simp [totalBeats]

/-! ### Taking values greedily -/

/-- As many of each value as fit, from the first on. -/
def greedy : ℚ → List ℕ → List ℕ
  | _, [] => []
  | r, v :: vs =>
    let count := (r / beats v).floor.toNat
    List.replicate count v ++ greedy (r - count * beats v) vs

/-- What is filled is the greedy choice, if that is the whole and within the limit. -/
theorem fill_eq_some {vs : List ℕ} : ∀ {used : ℕ} {r : ℚ} {l : List ℕ}, used ≤ maxTied →
    (Template.fill used r vs = some l ↔
      l = greedy r vs ∧ totalBeats l = r ∧ used + l.length ≤ maxTied) := by
  induction vs with
  | nil =>
    intro used r l hused
    rw [Template.fill, greedy]
    constructor
    · intro h
      split_ifs at h with hr
      obtain rfl := Option.some.inj h
      exact ⟨rfl, hr.symm, hused⟩
    · rintro ⟨rfl, hr, -⟩
      exact if_pos hr.symm
  | cons v vs ih =>
    intro used r l hused
    simp only [Template.fill, greedy]
    generalize (r / beats v).floor.toNat = count
    by_cases hcount : maxTied < used + count
    · -- Too many are taken already, and the others only add to them.
      rw [if_pos hcount]
      constructor
      · exact nofun
      · rintro ⟨rfl, -, hlength⟩
        rw [List.length_append, List.length_replicate] at hlength
        omega
    · rw [if_neg hcount, Option.map_eq_some_iff]
      constructor
      · rintro ⟨l', hfill, rfl⟩
        obtain ⟨rfl, htotal, hlength⟩ := (ih (Nat.le_of_not_lt hcount)).mp hfill
        refine ⟨rfl, ?_, ?_⟩
        · rw [totalBeats_append, totalBeats_replicate, htotal]
          ring
        · rw [List.length_append, List.length_replicate]
          omega
      · rintro ⟨rfl, htotal, hlength⟩
        refine ⟨_, (ih (Nat.le_of_not_lt hcount)).mpr ⟨rfl, ?_, ?_⟩, rfl⟩
        · rw [totalBeats_append, totalBeats_replicate] at htotal
          linarith
        · rw [List.length_append, List.length_replicate] at hlength
          omega

theorem mem_of_mem_greedy {vs : List ℕ} : ∀ {r : ℚ}, ∀ w ∈ greedy r vs, w ∈ vs := by
  induction vs with
  | nil => exact fun w hw => hw
  | cons v vs ih =>
    intro r w hw
    rcases List.mem_append.mp hw with hw | hw
    · rw [List.eq_of_mem_replicate hw]
      exact List.mem_cons_self
    · exact List.mem_cons_of_mem v (ih w hw)

/-! ### Values that are halved -/

/-- Note values of which each is half as long as the one before. -/
def halvings (v : ℕ) : ℕ → List ℕ
  | 0 => [v]
  | m + 1 => v :: halvings (2 * v) m

theorem noteValues_eq : noteValues = halvings 1 7 := rfl

example : noteValues.map beats = [4, 2, 1, 1 / 2, 1 / 4, 1 / 8, 1 / 16, 1 / 32] := by
  decide +kernel

theorem beats_pos {v : ℕ} (hv : 0 < v) : 0 < beats v := by
  rw [beats]
  positivity

theorem beats_two_mul (v : ℕ) : beats v = 2 * beats (2 * v) := by
  rw [beats, beats]
  push_cast
  ring

theorem beats_eq (v m : ℕ) : beats v = 2 ^ m * beats (v * 2 ^ m) := by
  induction m generalizing v with
  | zero => simp
  | succ m ih =>
    rw [beats_two_mul, ih (2 * v), show 2 * v * 2 ^ m = v * 2 ^ (m + 1) by ring]
    ring

theorem le_of_mem_halvings {m : ℕ} : ∀ {v w : ℕ}, w ∈ halvings v m → v ≤ w := by
  induction m with
  | zero => simp [halvings]
  | succ m ih =>
    intro v w hw
    rcases List.mem_cons.mp hw with rfl | hw
    · exact le_refl w
    · have hle := ih hw
      omega

/-- Each of the values is a power of two of the last. -/
theorem exists_pow_of_mem_halvings {m : ℕ} : ∀ {v w : ℕ}, w ∈ halvings v m →
    ∃ i ≤ m, beats w = 2 ^ i * beats (v * 2 ^ m) := by
  induction m with
  | zero =>
    intro v w hw
    obtain rfl := List.mem_singleton.mp hw
    exact ⟨0, le_refl 0, beats_eq w 0⟩
  | succ m ih =>
    intro v w hw
    rcases List.mem_cons.mp hw with rfl | hw
    · exact ⟨m + 1, le_refl _, beats_eq w (m + 1)⟩
    · obtain ⟨i, hi, hbeats⟩ := ih hw
      refine ⟨i, Nat.le_succ_of_le hi, ?_⟩
      rw [hbeats, show 2 * v * 2 ^ m = v * 2 ^ (m + 1) by ring]

/-! ### The fewest powers of two -/

/-- How many powers of two up to `2 ^ m` make up a number. -/
def fewest : ℕ → ℕ → ℕ
  | 0, k => k
  | m + 1, k => fewest m (k / 2) + k % 2

theorem fewest_le (m k : ℕ) : fewest m k ≤ k := by
  induction m generalizing k with
  | zero => exact le_refl k
  | succ m ih =>
    have hhalf := ih (k / 2)
    rw [fewest]
    omega

/-- A carry from the lowest digit takes the place of two ones. -/
theorem fewest_add_le (m a b : ℕ) : fewest m (a + b) ≤ fewest m a + fewest m b := by
  induction m generalizing a b with
  | zero => exact le_refl _
  | succ m ih =>
    have hsum := ih (a / 2) (b / 2)
    simp only [fewest]
    rcases Nat.mod_two_eq_zero_or_one a with ha | ha <;>
      rcases Nat.mod_two_eq_zero_or_one b with hb | hb
    · have hdiv : (a + b) / 2 = a / 2 + b / 2 := by omega
      rw [hdiv]
      omega
    · have hdiv : (a + b) / 2 = a / 2 + b / 2 := by omega
      rw [hdiv]
      omega
    · have hdiv : (a + b) / 2 = a / 2 + b / 2 := by omega
      rw [hdiv]
      omega
    · have hdiv : (a + b) / 2 = a / 2 + b / 2 + 1 := by omega
      have hcarry := ih (a / 2 + b / 2) 1
      have hone := fewest_le m 1
      rw [hdiv]
      omega

theorem fewest_two_pow {m i : ℕ} (h : i ≤ m) : fewest m (2 ^ i) ≤ 1 := by
  induction m generalizing i with
  | zero =>
    obtain rfl := Nat.le_zero.mp h
    exact le_refl 1
  | succ m ih =>
    rw [fewest]
    cases i with
    | zero => exact Nat.add_le_add_right (fewest_le m 0) 1
    | succ i =>
      have hpow := ih (Nat.le_of_succ_le_succ h)
      rw [pow_succ, Nat.mul_div_cancel _ two_pos, Nat.mul_mod_left]
      exact hpow

/-- The largest powers, and what the rest is made of. -/
theorem fewest_succ (m k : ℕ) :
    fewest (m + 1) k = k / 2 ^ (m + 1) + fewest m (k % 2 ^ (m + 1)) := by
  induction m generalizing k with
  | zero => simp [fewest]
  | succ m ih =>
    have hdiv : k % 2 ^ (m + 1 + 1) / 2 = k / 2 % 2 ^ (m + 1) := by
      rw [pow_succ, mul_comm, Nat.mod_mul_right_div_self]
    have hmod : k % 2 ^ (m + 1 + 1) % 2 = k % 2 :=
      Nat.mod_mod_of_dvd k (dvd_pow_self 2 (Nat.succ_ne_zero _))
    rw [fewest, ih, Nat.div_div_eq_div_mul, ← pow_succ', fewest, hdiv, hmod, Nat.add_assoc]

/-- The ones among the binary digits of a number. -/
def ones (n : ℕ) : ℕ := (Nat.digits 2 n).count 1

theorem ones_eq (n : ℕ) : ones n = ones (n / 2) + n % 2 := by
  rcases Nat.eq_zero_or_pos n with rfl | hn
  · simp [ones]
  · rw [ones, ones, Nat.digits_def' one_lt_two hn, List.count_cons]
    rcases Nat.mod_two_eq_zero_or_one n with h | h <;> simp [h]

theorem fewest_eq (m k : ℕ) : fewest m k = k / 2 ^ m + ones (k % 2 ^ m) := by
  induction m generalizing k with
  | zero => simp [fewest, ones, Nat.mod_one]
  | succ m ih =>
    have hdiv : k % 2 ^ (m + 1) / 2 = k / 2 % 2 ^ m := by
      rw [pow_succ, mul_comm, Nat.mod_mul_right_div_self]
    have hmod : k % 2 ^ (m + 1) % 2 = k % 2 :=
      Nat.mod_mod_of_dvd k (dvd_pow_self 2 (Nat.succ_ne_zero _))
    rw [fewest, ih, ones_eq (k % 2 ^ (m + 1)), hdiv, hmod, Nat.div_div_eq_div_mul, ← pow_succ']
    omega

/-! ### Lists of values, counted in the last -/

/-- What values last is a number of the last value, and they are at least the fewest for it. -/
theorem exists_units {v m : ℕ} {l : List ℕ} (h : ∀ w ∈ l, w ∈ halvings v m) :
    ∃ k : ℕ, totalBeats l = k * beats (v * 2 ^ m) ∧ fewest m k ≤ l.length := by
  induction l with
  | nil => exact ⟨0, by simp, fewest_le m 0⟩
  | cons w l ih =>
    obtain ⟨hw, hl⟩ := List.forall_mem_cons.mp h
    obtain ⟨k, htotal, hlength⟩ := ih hl
    obtain ⟨i, hi, hbeats⟩ := exists_pow_of_mem_halvings hw
    refine ⟨2 ^ i + k, ?_, ?_⟩
    · rw [totalBeats_cons, htotal, hbeats]
      push_cast
      ring
    · have hsum := fewest_add_le m (2 ^ i) k
      have hpow := fewest_two_pow hi
      rw [List.length_cons]
      omega

/-- No list of values that last equally long is shorter. -/
theorem fewest_le_length {v m k : ℕ} (hv : 0 < v) {l : List ℕ} (h : ∀ w ∈ l, w ∈ halvings v m)
    (htotal : totalBeats l = k * beats (v * 2 ^ m)) : fewest m k ≤ l.length := by
  obtain ⟨k', htotal', hlength⟩ := exists_units h
  have hunit : beats (v * 2 ^ m) ≠ 0 := (beats_pos (by positivity)).ne'
  have hk : (k : ℚ) = k' := mul_right_cancel₀ hunit (htotal.symm.trans htotal')
  rwa [Nat.cast_inj.mp hk]

/-! ### The greedy choice, counted in the last value -/

theorem floor_div_beats (v m k : ℕ) (hv : 0 < v) :
    (k * beats (v * 2 ^ m) / beats v).floor.toNat = k / 2 ^ m := by
  have hunit := (beats_pos (v := v * 2 ^ m) (by positivity)).ne'
  have hdiv : k * beats (v * 2 ^ m) / beats v = (k : ℚ) / (2 ^ m : ℕ) := by
    rw [beats_eq v m, mul_div_mul_right _ _ hunit]
    push_cast
    rfl
  have hfloor : ((k : ℚ) / (2 ^ m : ℕ)).floor = k / (2 ^ m : ℕ) :=
    Rat.floor_natCast_div_natCast k (2 ^ m)
  rw [hdiv, hfloor, ← Int.natCast_ediv, Int.toNat_natCast]

theorem cast_eq_div_add_mod (m k : ℕ) :
    (k : ℚ) = 2 ^ m * (k / 2 ^ m : ℕ) + (k % 2 ^ m : ℕ) := by
  exact_mod_cast (Nat.div_add_mod k (2 ^ m)).symm

/-- Of the first value there are as many as fit, and what is left is the remainder. -/
theorem greedy_cons {v m k : ℕ} (vs : List ℕ) (hv : 0 < v) :
    greedy (k * beats (v * 2 ^ m)) (v :: vs) =
      List.replicate (k / 2 ^ m) v ++ greedy ((k % 2 ^ m : ℕ) * beats (v * 2 ^ m)) vs := by
  have hrest : k * beats (v * 2 ^ m) - (k / 2 ^ m : ℕ) * beats v =
      (k % 2 ^ m : ℕ) * beats (v * 2 ^ m) := by
    rw [beats_eq v m, cast_eq_div_add_mod m k]
    ring
  rw [greedy, floor_div_beats v m k hv, hrest]

theorem greedy_halvings_zero {v k : ℕ} (hv : 0 < v) :
    greedy (k * beats (v * 2 ^ 0)) (halvings v 0) = List.replicate k v := by
  rw [halvings, greedy_cons [] hv, greedy, pow_zero, Nat.div_one, List.append_nil]

theorem greedy_halvings_succ {v m k : ℕ} (hv : 0 < v) :
    greedy (k * beats (v * 2 ^ (m + 1))) (halvings v (m + 1)) =
      List.replicate (k / 2 ^ (m + 1)) v ++
        greedy ((k % 2 ^ (m + 1) : ℕ) * beats (2 * v * 2 ^ m)) (halvings (2 * v) m) := by
  rw [halvings, greedy_cons _ hv, show v * 2 ^ (m + 1) = 2 * v * 2 ^ m by ring]

/-- Whole units are used up by the greedy choice. -/
theorem totalBeats_greedy {v m k : ℕ} (hv : 0 < v) :
    totalBeats (greedy (k * beats (v * 2 ^ m)) (halvings v m)) = k * beats (v * 2 ^ m) := by
  induction m generalizing v k with
  | zero => rw [greedy_halvings_zero hv, totalBeats_replicate, pow_zero, mul_one]
  | succ m ih =>
    rw [greedy_halvings_succ hv, totalBeats_append, totalBeats_replicate, ih (by omega),
      beats_eq v (m + 1), show 2 * v * 2 ^ m = v * 2 ^ (m + 1) by ring]
    rw [cast_eq_div_add_mod (m + 1) k]
    ring

/-- The greedy choice is as short as can be. -/
theorem length_greedy {v m k : ℕ} (hv : 0 < v) :
    (greedy (k * beats (v * 2 ^ m)) (halvings v m)).length = fewest m k := by
  induction m generalizing v k with
  | zero => rw [greedy_halvings_zero hv, List.length_replicate, fewest]
  | succ m ih =>
    rw [greedy_halvings_succ hv, List.length_append, List.length_replicate, ih (by omega),
      fewest_succ]

theorem pairwise_greedy {vs : List ℕ} (h : vs.Pairwise (· ≤ ·)) :
    ∀ {r : ℚ}, (greedy r vs).Pairwise (· ≤ ·) := by
  induction vs with
  | nil => exact List.Pairwise.nil
  | cons v vs ih =>
    intro r
    obtain ⟨hv, hvs⟩ := List.pairwise_cons.mp h
    refine List.pairwise_append.mpr ⟨List.pairwise_replicate.mpr (.inr (le_refl v)), ih hvs, ?_⟩
    intro w hw w' hw'
    rw [List.eq_of_mem_replicate hw]
    exact hv w' (mem_of_mem_greedy w' hw')

/-- Below twice the first value, none is taken twice. -/
theorem nodup_greedy {v m k : ℕ} (hv : 0 < v) (hk : k < 2 ^ (m + 1)) :
    (greedy (k * beats (v * 2 ^ m)) (halvings v m)).Nodup := by
  induction m generalizing v k with
  | zero =>
    rw [greedy_halvings_zero hv, List.nodup_replicate]
    omega
  | succ m ih =>
    have hcount : k / 2 ^ (m + 1) ≤ 1 := by
      have hlt := Nat.div_lt_of_lt_mul (pow_succ 2 (m + 1) ▸ hk)
      omega
    rw [greedy_halvings_succ hv, List.nodup_append]
    refine ⟨List.nodup_replicate.mpr hcount,
      ih (by omega) (Nat.mod_lt k (by positivity)), fun w hw w' hw' => ?_⟩
    have hle := le_of_mem_halvings (mem_of_mem_greedy w' hw')
    rw [List.eq_of_mem_replicate hw]
    omega

/-- Only the longest value is taken more than once. -/
theorem nodup_filter_greedy {v m k : ℕ} (hv : 0 < v) :
    ((greedy (k * beats (v * 2 ^ m)) (halvings v m)).filter (· ≠ v)).Nodup := by
  cases m with
  | zero =>
    rw [greedy_halvings_zero hv]
    simp
  | succ m =>
    rw [greedy_halvings_succ hv, List.filter_append]
    have hfirst : (List.replicate (k / 2 ^ (m + 1)) v).filter (· ≠ v) = [] := by simp
    rw [hfirst, List.nil_append]
    exact (nodup_greedy (by omega) (Nat.mod_lt k (by positivity))).filter _

/-! ### Beats that are tied from note values -/

/-- How many note values a number of beats takes: a whole note for every four beats, and one
value for each one among the binary digits of the rest, counted in the shortest value. -/
def valueCount (x : ℚ) : ℕ := ⌊x / 4⌋₊ + ones ⌊32 * (x - 4 * ⌊x / 4⌋₊)⌋₊

theorem valueCount_div (k : ℕ) : valueCount (k / 32) = fewest 7 k := by
  have hwhole : ⌊(k : ℚ) / 32 / 4⌋₊ = k / 2 ^ 7 := by
    rw [div_div, show (32 * 4 : ℚ) = (2 ^ 7 : ℕ) by norm_num, Nat.floor_div_eq_div]
  have hrest : 32 * ((k : ℚ) / 32 - 4 * (k / 2 ^ 7 : ℕ)) = (k % 2 ^ 7 : ℕ) := by
    linear_combination cast_eq_div_add_mod 7 k
  rw [valueCount, hwhole, hrest, Nat.floor_natCast, fewest_eq]

theorem beats_shortest : beats (1 * 2 ^ 7) = 1 / 32 := by
  norm_num [beats]

/-- Beats are filled with note values exactly if they are a number of the shortest one and do
not take too many; they are then filled greedily. -/
theorem fill_noteValues_eq_some {x : ℚ} {l : List ℕ} :
    Template.fill 0 x noteValues = some l ↔
      ∃ k : ℕ, x = k / 32 ∧ fewest 7 k ≤ maxTied ∧
        l = greedy (k * beats (1 * 2 ^ 7)) noteValues := by
  have hunits (k : ℕ) : (k : ℚ) * beats (1 * 2 ^ 7) = k / 32 := by
    rw [beats_shortest, mul_one_div]
  rw [fill_eq_some (Nat.zero_le _), Nat.zero_add]
  constructor
  · rintro ⟨rfl, htotal, hlength⟩
    obtain ⟨k, hk, -⟩ := exists_units (v := 1) (m := 7) (l := greedy x noteValues)
      mem_of_mem_greedy
    have hx : x = k / 32 := by rw [← hunits, ← hk, htotal]
    refine ⟨k, hx, ?_, by rw [hunits, hx]⟩
    rwa [hx, ← hunits, noteValues_eq, length_greedy one_pos] at hlength
  · rintro ⟨k, rfl, hcount, rfl⟩
    rw [hunits]
    refine ⟨rfl, ?_, ?_⟩
    · rw [← hunits, noteValues_eq, totalBeats_greedy one_pos]
    · rwa [← hunits, noteValues_eq, length_greedy one_pos]

/-! ### Tuplets -/

/-- A duration is put into a tuplet of the odd part of its denominator in the time of the
largest power of two that is not above it. -/
structure Rescaled (d : ℚ) (odd scale : ℕ) : Prop where
  den : ∃ a, d.den = 2 ^ a * odd
  isOdd : Odd odd
  isGreatest : IsGreatest {r | r ≤ odd ∧ ∃ i, r = 2 ^ i} scale

theorem oddPart_eq {n a odd : ℕ} (h : n = 2 ^ a * odd) (hodd : Odd odd) : oddPart n = odd := by
  have hpos : 0 < odd := hodd.pos
  have hle : a ≤ Nat.log2 n := by
    rw [Nat.le_log2 (by rw [h]; positivity), h]
    exact Nat.le_mul_of_pos_right _ hpos
  have hcoprime : Nat.Coprime (2 ^ Nat.log2 n) odd :=
    Nat.Coprime.pow_left _ (Nat.coprime_two_left.mpr hodd)
  have htwo : twoPart n = 2 ^ a := by
    rw [twoPart, Nat.one_shiftLeft]
    nth_rewrite 1 [h]
    rw [Nat.Coprime.gcd_mul_right_cancel _ hcoprime.symm]
    exact Nat.gcd_eq_left (pow_dvd_pow 2 hle)
  rw [oddPart, htwo, h]
  exact Nat.mul_div_cancel_left odd (by positivity)

theorem isGreatest_log2 {n : ℕ} (hn : n ≠ 0) :
    IsGreatest {r | r ≤ n ∧ ∃ i, r = 2 ^ i} (1 <<< Nat.log2 n) := by
  rw [Nat.one_shiftLeft]
  refine ⟨⟨Nat.log2_self_le hn, _, rfl⟩, ?_⟩
  rintro r ⟨hle, i, rfl⟩
  exact Nat.pow_le_pow_right two_pos ((Nat.le_log2 hn).mpr hle)

/-- There is one tuplet for every duration. -/
theorem exists_rescaled (d : ℚ) : ∃ odd scale, Rescaled d odd scale := by
  obtain ⟨a, odd, hodd, hden⟩ := Nat.exists_eq_two_pow_mul_odd d.den_nz
  exact ⟨odd, _, ⟨a, hden⟩, hodd, isGreatest_log2 hodd.pos.ne'⟩

namespace Rescaled

variable {d : ℚ} {odd scale : ℕ}

theorem oddPart_den (h : Rescaled d odd scale) : oddPart d.den = odd := by
  obtain ⟨a, hden⟩ := h.den
  exact oddPart_eq hden h.isOdd

theorem log2_odd (h : Rescaled d odd scale) : 1 <<< Nat.log2 odd = scale :=
  (isGreatest_log2 h.isOdd.pos.ne').unique h.isGreatest

theorem exists_pow (h : Rescaled d odd scale) : ∃ i, scale = 2 ^ i := h.isGreatest.1.2

theorem scale_pos (h : Rescaled d odd scale) : 0 < scale := by
  obtain ⟨i, rfl⟩ := h.exists_pow
  positivity

theorem odd_lt (h : Rescaled d odd scale) : odd < 2 * scale := by
  rw [← h.log2_odd, Nat.one_shiftLeft, ← pow_succ']
  exact Nat.lt_log2_self

/-- Without an odd part nothing is rescaled. -/
theorem scale_eq_one (h : Rescaled d 1 scale) : scale = 1 :=
  le_antisymm h.isGreatest.1.1 h.scale_pos

end Rescaled

/-- A template of positive beats holds what they are filled with after rescaling. -/
theorem ofBeats_eq_some {d : ℚ} {odd scale : ℕ} (h : Rescaled d odd scale) {t : Template} :
    Template.ofBeats d = some t ↔
      0 < d ∧ Template.fill 0 (d * odd / scale) noteValues = some t.noteValues ∧
        odd < 2 ^ 63 ∧ t.tuplet = if odd = 1 then none else some (odd, scale) := by
  rw [Template.ofBeats]
  simp only [h.oddPart_den, h.log2_odd]
  obtain ⟨values, tuplet⟩ := t
  by_cases hd : d ≤ 0
  · rw [if_pos hd]
    simp [not_lt.mpr hd]
  · rw [if_neg hd]
    cases hfill : Template.fill 0 (d * odd / scale) noteValues with
    | none => simp
    | some values' =>
      by_cases hone : odd = 1
      · simp [hone, lt_of_not_ge hd, eq_comm]
      · simp [hone, lt_of_not_ge hd, eq_comm, and_left_comm]

/-! ### Durations -/

/-- What a template lasts: its tied values, sped up by the tuplet around them. -/
def Template.lasts (t : Template) : ℚ :=
  match t.tuplet with
  | none => totalBeats t.noteValues
  | some (odd, scale) => totalBeats t.noteValues * scale / odd

/-- A template writes `d` exactly, from the longest value down and with the fewest values. -/
structure Writes (t : Template) (d : ℚ) (odd scale : ℕ) : Prop where
  values : ∀ v ∈ t.noteValues, v ∈ noteValues
  total : totalBeats t.noteValues = d * odd / scale
  lasts : t.lasts = d
  descending : (t.noteValues.map beats).Pairwise (· ≥ ·)
  nodup : (t.noteValues.filter (· ≠ 1)).Nodup
  shortest : ∀ l : List ℕ, (∀ v ∈ l, v ∈ noteValues) →
    totalBeats l = totalBeats t.noteValues → t.noteValues.length ≤ l.length
  tuplet : t.tuplet = if odd = 1 then none else some (odd, scale)

theorem writes_of_ofBeats {d : ℚ} {odd scale : ℕ} (h : Rescaled d odd scale) {t : Template}
    (ht : Template.ofBeats d = some t) : Writes t d odd scale := by
  obtain ⟨-, hfill, -, htuplet⟩ := (ofBeats_eq_some h).mp ht
  obtain ⟨k, hx, -, hvalues⟩ := fill_noteValues_eq_some.mp hfill
  have htotal : totalBeats t.noteValues = k * beats (1 * 2 ^ 7) := by
    rw [hvalues, noteValues_eq, totalBeats_greedy one_pos]
  have hunits : totalBeats t.noteValues = d * odd / scale := by
    rw [htotal, hx, beats_shortest, mul_one_div]
  refine ⟨?_, hunits, ?_, ?_, ?_, ?_, htuplet⟩
  · rw [hvalues]
    exact mem_of_mem_greedy
  · have hscale : (scale : ℚ) ≠ 0 := by exact_mod_cast h.scale_pos.ne'
    have hodd : (odd : ℚ) ≠ 0 := by exact_mod_cast h.isOdd.pos.ne'
    rw [Template.lasts, htuplet]
    split_ifs with hone
    · subst hone
      rw [hunits, h.scale_eq_one]
      simp
    · rw [hunits]
      field_simp
  · rw [hvalues, List.pairwise_map]
    have hsorted : noteValues.Pairwise (· ≤ ·) := by decide
    refine (pairwise_greedy hsorted).imp_of_mem fun {v w} hv _ hle => ?_
    have hpos : 0 < v := le_of_mem_halvings (v := 1) (m := 7) (mem_of_mem_greedy v hv)
    exact div_le_div_of_nonneg_left (by norm_num) (by exact_mod_cast hpos) (by exact_mod_cast hle)
  · rw [hvalues, noteValues_eq]
    exact nodup_filter_greedy one_pos
  · intro l hl hsame
    rw [hvalues, noteValues_eq, length_greedy one_pos]
    exact fewest_le_length one_pos hl (hsame.trans htotal)

theorem exists_ofBeats_iff {d : ℚ} {odd scale : ℕ} (h : Rescaled d odd scale) :
    (∃ t, Template.ofBeats d = some t) ↔
      0 < d ∧ (∃ k : ℤ, d * odd / scale = k / 32) ∧ valueCount (d * odd / scale) ≤ 1024 ∧
        odd ≤ 2 ^ 63 - 1 := by
  have hodd : (0 : ℚ) < odd := by exact_mod_cast h.isOdd.pos
  have hscale : (0 : ℚ) < scale := by exact_mod_cast h.scale_pos
  constructor
  · rintro ⟨t, ht⟩
    obtain ⟨hd, hfill, hfits, -⟩ := (ofBeats_eq_some h).mp ht
    obtain ⟨k, hx, hcount, -⟩ := fill_noteValues_eq_some.mp hfill
    refine ⟨hd, ⟨k, by rw [hx]; rfl⟩, ?_, Nat.le_sub_one_of_lt hfits⟩
    rw [hx, valueCount_div]
    exact hcount
  · rintro ⟨hd, ⟨k, hx⟩, hcount, hfits⟩
    have hpos : (0 : ℚ) < k / 32 := hx ▸ by positivity
    obtain ⟨k, rfl⟩ : ∃ n : ℕ, k = n := by
      refine Int.eq_ofNat_of_zero_le ?_
      by_contra hk
      have hneg : (k : ℚ) < 0 := by exact_mod_cast not_le.mp hk
      linarith
    rw [Int.cast_natCast] at hx
    rw [hx, valueCount_div] at hcount
    have hfill := fill_noteValues_eq_some.mpr ⟨k, hx, hcount, rfl⟩
    refine ⟨⟨_, if odd = 1 then none else some (odd, scale)⟩, (ofBeats_eq_some h).mpr
      ⟨hd, hfill, by omega, rfl⟩⟩

theorem ofDuration_eq_ok {q : Quantity} {t : Template} :
    Template.ofDuration q = .ok t ↔ ∃ d, q.value = .exact d ∧ Template.ofBeats d = some t := by
  rw [Template.ofDuration]
  cases q.value with
  | exact d =>
    dsimp only
    cases hd : Template.ofBeats d <;> simp [hd]
  | approximate x => simp

theorem eq_unwritable_of_ofDuration {q : Quantity} {e : Fault}
    (h : Template.ofDuration q = .error e) : e = .violation (.unwritableDuration q) := by
  rw [Template.ofDuration] at h
  split at h
  · cases h
  · exact (Except.error.inj h).symm

/-- A duration can be written exactly if, inside its tuplet, it is a positive number of the
shortest note value and takes no more than 1024 values; and then it is written with the
fewest.  Any other is refused under its own name, among them what is not positive and a
tempered power, which has no exact value. -/
theorem ofDuration_written (q : Quantity) :
    (∀ (d : ℚ) (odd scale : ℕ), q.value = .exact d → Rescaled d odd scale →
      ((∃ t, Template.ofDuration q = .ok t) ↔
        0 < d ∧ (∃ k : ℤ, d * odd / scale = k / 32) ∧ valueCount (d * odd / scale) ≤ 1024 ∧
          odd ≤ 2 ^ 63 - 1) ∧
      (∃ i, scale = 2 ^ i) ∧ scale ≤ odd ∧ odd < 2 * scale ∧
      ∀ t, Template.ofDuration q = .ok t → Writes t d odd scale) ∧
    (∀ e, Template.ofDuration q = .error e → e = .violation (.unwritableDuration q)) ∧
    ((∀ d, q.value = .exact d → d ≤ 0) →
      Template.ofDuration q = .error (.violation (.unwritableDuration q))) := by
  refine ⟨fun d odd scale hq h => ⟨?_, h.exists_pow, h.isGreatest.1.1, h.odd_lt, fun t ht => ?_⟩,
    fun e => eq_unwritable_of_ofDuration, fun hnone => ?_⟩
  · rw [← exists_ofBeats_iff h]
    refine exists_congr fun t => ofDuration_eq_ok.trans ?_
    rw [hq]
    simp
  · obtain ⟨d', hq', ht'⟩ := ofDuration_eq_ok.mp ht
    obtain rfl := Number.exact.inj (hq.symm.trans hq')
    exact writes_of_ofBeats h ht'
  · cases hq : Template.ofDuration q with
    | error e => rw [eq_unwritable_of_ofDuration hq]
    | ok t =>
      obtain ⟨d, hd, ht⟩ := ofDuration_eq_ok.mp hq
      obtain ⟨odd, scale, h⟩ := exists_rescaled d
      exact absurd (hnone d hd) (not_le.mpr ((ofBeats_eq_some h).mp ht).1)

theorem rescaled_fifths : Rescaled (3 / 5) 5 4 :=
  ⟨⟨0, by decide +kernel⟩, by decide, isGreatest_log2 (n := 5) (by decide)⟩

/-- Three fifths of a beat are an eighth and a sixteenth in a quintuplet; no time at all cannot
be written. -/
theorem ofDuration_three_fifths :
    (∃ t, Template.ofDuration (.ratio (.ofTerms 3 5 (by decide))) = .ok t ∧
      Writes t (3 / 5) 5 4) ∧
    Template.ofDuration (.ratio (.ofInt 0)) =
      .error (.violation (.unwritableDuration (.ratio (.ofInt 0)))) := by
  constructor
  · obtain ⟨hok, -, -, -, hwrites⟩ :=
      (ofDuration_written (.ratio (.ofTerms 3 5 (by decide)))).1 (3 / 5) 5 4
        (by decide +kernel) rescaled_fifths
    obtain ⟨t, ht⟩ := hok.mpr ⟨by norm_num, ⟨24, by norm_num⟩, by decide +kernel, by norm_num⟩
    exact ⟨t, ht, hwrites t ht⟩
  · refine (ofDuration_written (.ratio (.ofInt 0))).2.2 fun d hd => ?_
    obtain rfl := Number.exact.inj hd
    decide +kernel

end JustIntonation.Score
