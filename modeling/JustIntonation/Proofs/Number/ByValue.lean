/-
JustIntonation/Proofs/Number/ByValue.lean

Numbers of both kinds stand in one total order, by value.

That the order is one and total comes from the places of numbers
(`compare_eq_cmp`).  What is left is to say where the places lie: a finite
number, exact or not, at the rational it denotes (`place_of_denotes`), the
infinities around these and the NaNs around the infinities.

Main result: `compare` is oriented, transitive and by value
(`compare_totalByValue`).
-/
import JustIntonation.Proofs.Number.Order

namespace JustIntonation.Number

/-- The rational that a finite number stands for: an exact one for itself, a double for what its
encoding says. -/
inductive Denotes : Number → ℚ → Prop
  | exact (q : ℚ) : Denotes (.exact q) q
  | approximate {x : Binary64} (h : x.isFinite) : Denotes (.approximate x) x.encodedValue

/-- A finite number stands where the rational does that it denotes. -/
theorem place_of_denotes {a : Number} {q : ℚ} (h : Denotes a q) : a.place = toLex (0, q) := by
  cases h with
  | exact => rfl
  | approximate h => rw [place, position_of_isFinite h, Binary64.toRat_eq_encodedValue]

/-- Either zero denotes zero. -/
theorem denotes_zero {x : Binary64} (h : x.isZero) : Denotes (.approximate x) 0 := by
  have hmagnitude : x.magnitude = 0 := of_decide_eq_true h
  have hvalue : x.encodedValue = 0 := by
    rw [← Binary64.toRat_eq_encodedValue, Binary64.toRat, Binary64.absRat_eq, hmagnitude]
    simp
  rw [← hvalue]
  exact .approximate (decide_eq_true (hmagnitude ▸ by decide))

theorem position_infinity (negative : Bool) :
    (approximate (.infinity negative)).position = (if negative then -1 else 1, 0) := by
  cases negative <;> rfl

/-- A comparison is one total order by value: oriented, reflexive and transitive, with finite
numbers in the order of the rationals that they denote, the infinities beyond them, and the NaNs
beyond the infinities on the side of their sign. -/
structure TotalByValue (order : Number → Number → Ordering) (equal : Number → Number → Bool) :
    Prop where
  swap : ∀ a b, order b a = (order a b).swap
  refl : ∀ a, order a a = .eq
  trans : ∀ a b c, (order a b).isLE → (order b c).isLE → (order a c).isLE
  lt_of_lt_of_le : ∀ a b c, order a b = .lt → (order b c).isLE → order a c = .lt
  lt_of_le_of_lt : ∀ a b c, (order a b).isLE → order b c = .lt → order a c = .lt
  congr : ∀ a b c, order a b = .eq → order a c = order b c
  equal : ∀ a b, equal a b ↔ order a b = .eq
  value : ∀ a b p q, Denotes a p → Denotes b q → order a b = cmp p q
  zero : ∀ x y : Binary64, x.isZero → y.isZero →
    order (.approximate x) (.exact 0) = .eq ∧ order (.approximate x) (.approximate y) = .eq
  apart : ∀ p q : ℚ, p ≠ q → order (.exact p) (.exact q) ≠ .eq
  infinity : ∀ a q, Denotes a q →
    order (.approximate (.infinity true)) a = .lt ∧ order a (.approximate (.infinity false)) = .lt
  nan : ∀ (x : Binary64) (a : Number), x.isNaN → (∀ y, a = .approximate y → y.isNaN = false) →
    order (.approximate x) a = if x.negative then .lt else .gt

theorem compare_isLE {a b : Number} : (a.compare b).isLE ↔ a.place ≤ b.place := by
  rw [compare_eq_cmp, ← not_lt, ← cmp_eq_gt_iff, ← Ordering.ne_gt_iff_isLE]

/-- Finite numbers compare as the rationals that they denote. -/
theorem compare_of_denotes {a b : Number} {p q : ℚ} (ha : Denotes a p) (hb : Denotes b q) :
    a.compare b = cmp p q := by
  rw [compare_eq_cmp, place_of_denotes ha, place_of_denotes hb]
  exact cmp_place_exact p q

theorem compare_totalByValue : TotalByValue compare same where
  swap a b := by rw [compare_eq_cmp, compare_eq_cmp, cmp_swap]
  refl a := compare_eq_eq.mpr rfl
  trans a b c hab hbc := compare_isLE.mpr ((compare_isLE.mp hab).trans (compare_isLE.mp hbc))
  lt_of_lt_of_le a b c hab hbc :=
    compare_eq_lt.mpr ((compare_eq_lt.mp hab).trans_le (compare_isLE.mp hbc))
  lt_of_le_of_lt a b c hab hbc :=
    compare_eq_lt.mpr ((compare_isLE.mp hab).trans_lt (compare_eq_lt.mp hbc))
  congr a b c hab := by rw [compare_eq_cmp, compare_eq_cmp, compare_eq_eq.mp hab]
  equal a b := same_iff.trans compare_eq_eq.symm
  value a b p q ha hb := compare_of_denotes ha hb
  zero x y hx hy := by
    rw [compare_of_denotes (denotes_zero hx) (.exact 0),
      compare_of_denotes (denotes_zero hx) (denotes_zero hy)]
    exact ⟨cmp_self_eq_eq 0, cmp_self_eq_eq 0⟩
  apart p q hpq heq := hpq (place_exact_inj.mp (compare_eq_eq.mp heq))
  infinity a q h := by
    rw [compare_eq_lt, compare_eq_lt, place_of_denotes h, place, place, position_infinity,
      position_infinity, Prod.Lex.toLex_lt_toLex, Prod.Lex.toLex_lt_toLex]
    exact ⟨.inl (by simp), .inl (by simp)⟩
  nan x a hx ha := by
    obtain ⟨hlow, hhigh⟩ := abs_le.mp (abs_position_le_one ha)
    have hclass : (approximate x).position.1 = if x.negative then -2 else 2 :=
      congrArg Prod.fst (position_of_isNaN hx)
    split_ifs at hclass ⊢ with hnegative
    · exact compare_eq_lt.mpr (place_lt_iff.mpr (.inl (by omega)))
    · exact compare_eq_gt.mpr (place_lt_iff.mpr (.inl (by omega)))

/-- Fractions that are rounded to one double stay apart, from each other and from the double. -/
example :
    let below : ℚ := mkRat 9007199254740992 9007199254740993
    let above : ℚ := mkRat 9007199254740993 9007199254740994
    let rounded := Binary64.ofRat below
    rounded = Binary64.ofRat above ∧ compare (.exact below) (.exact above) = .lt ∧
      compare (.approximate rounded) (.exact below) = .lt ∧
      compare (.exact above) (.approximate rounded) = .gt := by
  decide +kernel

end JustIntonation.Number
