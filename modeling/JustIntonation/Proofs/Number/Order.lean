/-
JustIntonation/Proofs/Number/Order.lean

The order of numbers, and lists in that order.

`compare` has a rule for each mix of exact numbers and doubles.  Together they
order numbers as the lexicographic order orders their positions, in which the
finite values of both kinds are one class between the infinities, and the NaNs
lie outermost (`compare_eq_cmp`); so the laws of `compare` are those of a
linear order.  Equal position is coarser than equality, which is why a list
without repetition is described by its positions: `distinct` lists each
position that occurs once, in ascending order (`distinct_ascending`,
`exists_mem_distinct`), and `dedup` does so for a sorted list
(`dedup_ascending`, `exists_mem_dedup`).
-/
import JustIntonation.Number
import JustIntonation.Proofs.Binary64.Value
import Mathlib.Data.Prod.Lex
import Mathlib.Order.Compare
import Mathlib.Algebra.Order.Ring.Rat

namespace JustIntonation.Number

/-! ### Positions -/

/-- Where a number stands: first its class, from NaNs of negative sign over the infinities
and the finite values to NaNs of positive sign, then its value within the class. -/
def position : Number → Int × Rat
  | .exact q => (0, q)
  | .approximate x =>
    let side : Int := if x.negative then -1 else 1
    if x.isNaN then (2 * side, x.rank)
    else if x.isInfinite then (side, 0)
    else (0, x.toRat)

/-- The place of a number in the order of numbers. -/
def place (a : Number) : ℤ ×ₗ ℚ := toLex a.position

theorem place_lt_iff {a b : Number} :
    a.place < b.place ↔ a.position.1 < b.position.1 ∨
      a.position.1 = b.position.1 ∧ a.position.2 < b.position.2 :=
  Prod.Lex.toLex_lt_toLex

@[simp] theorem place_exact (p : ℚ) : (exact p).place = toLex (0, p) := rfl

@[simp] theorem place_exact_lt {p q : ℚ} : (exact p).place < (exact q).place ↔ p < q := by
  rw [place_lt_iff]
  simp [position]

@[simp] theorem place_exact_inj {p q : ℚ} : (exact p).place = (exact q).place ↔ p = q := by
  simp

theorem position_of_isFinite {x : Binary64} (h : x.isFinite) :
    (approximate x).position = (0, x.toRat) := by
  simp [position, Binary64.isNaN_of_isFinite h, Binary64.isInfinite_of_isFinite h]

/-- A double that is not finite stands outside the finite values, on the side of its sign. -/
theorem position_of_not_isFinite {x : Binary64} (h : x.isFinite = false) :
    if x.negative then (approximate x).position.1 < 0 else 0 < (approximate x).position.1 := by
  have hle : Binary64.infinityMagnitude ≤ x.magnitude := not_lt.mp (of_decide_eq_false h)
  simp only [position, Binary64.isNaN, Binary64.isInfinite, decide_eq_true_eq]
  cases x.negative <;> simp <;> split_ifs <;> simp <;> omega

/-- Values that are no NaNs stand in the order of their ranks. -/
theorem place_lt_iff_rank {x y : Binary64} (hx : x.isNaN = false) (hy : y.isNaN = false) :
    (approximate x).place < (approximate y).place ↔ x.rank < y.rank := by
  have hxle : x.magnitude ≤ Binary64.infinityMagnitude := not_lt.mp (of_decide_eq_false hx)
  have hyle : y.magnitude ≤ Binary64.infinityMagnitude := not_lt.mp (of_decide_eq_false hy)
  have hpos : 0 < Binary64.infinityMagnitude := by decide
  simp only [place_lt_iff, position, hx, hy, Bool.false_eq_true, if_false]
  by_cases hfinite : x.isInfinite = false ∧ y.isInfinite = false
  · simpa [hfinite] using Binary64.toRat_lt_iff
  · -- An infinity has a class of its own, and the largest rank.
    simp only [Binary64.isInfinite, decide_eq_false_iff_not] at hfinite
    simp only [Binary64.isInfinite, decide_eq_true_eq, Binary64.rank]
    split_ifs <;> simp <;> omega

theorem position_of_isNaN {x : Binary64} (h : x.isNaN) :
    (approximate x).position = (if x.negative then -2 else 2, (x.rank : ℚ)) := by
  rw [position, if_pos h]
  cases x.negative <;> rfl

/-- All classes but those of the NaNs lie from one infinity to the other. -/
theorem abs_position_le_one {a : Number} (h : ∀ x, a = approximate x → x.isNaN = false) :
    |a.position.1| ≤ 1 := by
  cases a with
  | exact q => exact zero_le_one
  | approximate x =>
    rw [position, if_neg (by simp [h x rfl])]
    cases x.negative <;> split_ifs <;> simp

/-- Where a NaN is concerned, places are in the total order: a NaN stands outside all values, and
NaNs of one sign stand in the order of their ranks. -/
theorem place_lt_iff_totalRank {x y : Binary64} (h : (x.isNaN || y.isNaN) = true) :
    (approximate x).place < (approximate y).place ↔ x.totalRank < y.totalRank := by
  have hinner {z : Binary64} (hz : z.isNaN = false) : |(approximate z).position.1| ≤ 1 :=
    abs_position_le_one fun _ heq => approximate.inj heq ▸ hz
  rw [place_lt_iff, Binary64.totalRank, Binary64.totalRank]
  cases hx : x.isNaN with
  | false =>
    have hy : y.isNaN = true := by simpa [hx] using h
    have hlt : x.magnitude < y.magnitude :=
      (not_lt.mp (of_decide_eq_false hx)).trans_lt (of_decide_eq_true hy)
    obtain ⟨hlow, hhigh⟩ := abs_le.mp (hinner hx)
    rw [position_of_isNaN hy]
    split_ifs <;> simp only <;> omega
  | true =>
    cases hy : y.isNaN with
    | false =>
      have hlt : y.magnitude < x.magnitude :=
        (not_lt.mp (of_decide_eq_false hy)).trans_lt (of_decide_eq_true hx)
      obtain ⟨hlow, hhigh⟩ := abs_le.mp (hinner hy)
      rw [position_of_isNaN hx]
      split_ifs <;> simp only <;> omega
    | true =>
      rw [position_of_isNaN hx, position_of_isNaN hy, Int.cast_lt, Binary64.rank, Binary64.rank]
      split_ifs <;> simp only [true_and] <;> omega

/-! ### Comparison -/

theorem compareOfLessAndEq_eq_cmp {α : Type} [LinearOrder α] (a b : α) [Decidable (a < b)]
    [DecidableEq α] : compareOfLessAndEq a b = cmp a b := by
  rw [compareOfLessAndEq]
  rcases lt_trichotomy a b with h | h | h
  · rw [if_pos h, (cmp_eq_lt_iff a b).mpr h]
  · rw [if_neg (not_lt.mpr h.ge), if_pos h, (cmp_eq_eq_iff a b).mpr h]
  · rw [if_neg (not_lt.mpr h.le), if_neg h.ne', (cmp_eq_gt_iff a b).mpr h]

theorem cmp_eq_cmp {α β : Type} [LinearOrder α] [LinearOrder β] {a b : α} {c d : β}
    (hlt : a < b ↔ c < d) (hgt : b < a ↔ d < c) : cmp a b = cmp c d := by
  rcases lt_trichotomy a b with h | h | h
  · rw [(cmp_eq_lt_iff a b).mpr h, (cmp_eq_lt_iff c d).mpr (hlt.mp h)]
  · have hcd : c = d := le_antisymm (not_lt.mp fun hdc => (hgt.mpr hdc).ne h.symm)
      (not_lt.mp fun hcd => (hlt.mpr hcd).ne h)
    rw [(cmp_eq_eq_iff a b).mpr h, (cmp_eq_eq_iff c d).mpr hcd]
  · rw [(cmp_eq_gt_iff a b).mpr h, (cmp_eq_gt_iff c d).mpr (hgt.mp h)]

theorem cmp_place_exact (p q : ℚ) : cmp (exact p).place (exact q).place = cmp p q :=
  cmp_eq_cmp place_exact_lt place_exact_lt

theorem compareExact_eq_cmp (q : ℚ) (x : Binary64) :
    compareExact q x = cmp (exact q).place (approximate x).place := by
  rw [compareExact]
  cases hfinite : x.isFinite with
  | true =>
    have hplace : (approximate x).place = (exact x.toRat).place :=
      congrArg toLex (position_of_isFinite hfinite)
    rw [if_pos rfl, compareOfLessAndEq_eq_cmp, hplace, cmp_place_exact]
  | false =>
    have hside := position_of_not_isFinite hfinite
    rw [if_neg Bool.false_ne_true]
    cases hnegative : x.negative with
    | true =>
      rw [hnegative, if_pos rfl] at hside
      rw [if_pos rfl]
      have hlt : (approximate x).place < (exact q).place := place_lt_iff.mpr (.inl hside)
      exact ((cmp_eq_gt_iff _ _).mpr hlt).symm
    | false =>
      rw [hnegative, if_neg Bool.false_ne_true] at hside
      rw [if_neg Bool.false_ne_true]
      have hlt : (exact q).place < (approximate x).place := place_lt_iff.mpr (.inl hside)
      exact ((cmp_eq_lt_iff _ _).mpr hlt).symm

/-- Numbers compare as their places do. -/
theorem compare_eq_cmp (a b : Number) : a.compare b = cmp a.place b.place := by
  cases a with
  | exact p =>
    cases b with
    | exact q => rw [compare, compareOfLessAndEq_eq_cmp, cmp_place_exact]
    | approximate y => rw [compare, compareExact_eq_cmp]
  | approximate x =>
    cases b with
    | exact q => rw [compare, compareExact_eq_cmp, cmp_swap]
    | approximate y =>
      rw [compare, Binary64.compareValues]
      cases hnan : x.isNaN || y.isNaN with
      | true =>
        -- A NaN is compared by the total order alone.
        rw [if_pos rfl, Option.getD_none, Binary64.compareTotal, compareOfLessAndEq_eq_cmp]
        exact (cmp_eq_cmp (place_lt_iff_totalRank hnan)
          (place_lt_iff_totalRank ((Bool.or_comm _ _).trans hnan))).symm
      | false =>
        obtain ⟨hx, hy⟩ := Bool.or_eq_false_iff.mp hnan
        rw [if_neg Bool.false_ne_true, Option.getD_some, compareOfLessAndEq_eq_cmp]
        exact (cmp_eq_cmp (place_lt_iff_rank hx hy) (place_lt_iff_rank hy hx)).symm

theorem compare_eq_lt {a b : Number} : a.compare b = .lt ↔ a.place < b.place := by
  rw [compare_eq_cmp, cmp_eq_lt_iff]

theorem compare_eq_gt {a b : Number} : a.compare b = .gt ↔ b.place < a.place := by
  rw [compare_eq_cmp, cmp_eq_gt_iff]

theorem compare_eq_eq {a b : Number} : a.compare b = .eq ↔ a.place = b.place := by
  rw [compare_eq_cmp, cmp_eq_eq_iff]

theorem same_iff {a b : Number} : a.same b = true ↔ a.place = b.place := by
  rw [same, decide_eq_true_iff, compare_eq_eq]

/-! ### Lists without repetition -/

/-- Each number of the list lies below the next. -/
def Ascending (xs : List Number) : Prop := xs.Pairwise fun a b => a.place < b.place

theorem insert_subset (x : Number) (xs : List Number) : ∀ y ∈ insert x xs, y = x ∨ y ∈ xs := by
  induction xs with
  | nil => simp [insert]
  | cons z xs ih =>
    intro y hy
    rw [insert] at hy
    cases hc : x.compare z with
    | lt => simpa [hc] using hy
    | eq =>
      rw [hc] at hy
      exact .inr hy
    | gt =>
      rw [hc] at hy
      obtain rfl | hy := List.mem_cons.mp hy
      · exact .inr List.mem_cons_self
      · exact (ih y hy).imp_right (List.mem_cons_of_mem z)

theorem mem_insert_of_mem {x y : Number} {xs : List Number} (h : y ∈ xs) : y ∈ insert x xs := by
  induction xs with
  | nil => simp at h
  | cons z xs ih =>
    rw [insert]
    cases x.compare z with
    | lt => exact List.mem_cons_of_mem x h
    | eq => exact h
    | gt =>
      obtain rfl | h := List.mem_cons.mp h
      · exact List.mem_cons_self
      · exact List.mem_cons_of_mem z (ih h)

/-- Behind an insertion some number stands at the place of the inserted one. -/
theorem exists_mem_insert (x : Number) (xs : List Number) :
    ∃ y ∈ insert x xs, y.place = x.place := by
  induction xs with
  | nil => exact ⟨x, by simp [insert], rfl⟩
  | cons z xs ih =>
    rw [insert]
    cases hc : x.compare z with
    | lt => exact ⟨x, List.mem_cons_self, rfl⟩
    | eq =>
      -- The one that was there stays and stands for the new one.
      exact ⟨z, List.mem_cons_self, (compare_eq_eq.mp hc).symm⟩
    | gt =>
      obtain ⟨y, hy, hplace⟩ := ih
      exact ⟨y, List.mem_cons_of_mem z hy, hplace⟩

theorem Ascending.insert {xs : List Number} (h : Ascending xs) (x : Number) :
    Ascending (insert x xs) := by
  induction xs with
  | nil => exact List.pairwise_singleton _ x
  | cons z xs ih =>
    obtain ⟨hz, hxs⟩ := List.pairwise_cons.mp h
    rw [Number.insert]
    cases hc : x.compare z with
    | lt =>
      have hlt := compare_eq_lt.mp hc
      refine List.pairwise_cons.mpr ⟨?_, h⟩
      intro y hy
      obtain rfl | hy := List.mem_cons.mp hy
      · exact hlt
      · exact hlt.trans (hz y hy)
    | eq => exact h
    | gt =>
      have hgt := compare_eq_gt.mp hc
      -- Behind the head there are now the new number and those that were there before.
      refine List.pairwise_cons.mpr ⟨?_, ih hxs⟩
      intro y hy
      obtain rfl | hy := insert_subset x xs y hy
      · exact hgt
      · exact hz y hy

/-! ### The distinct numbers of a list -/

theorem Ascending.foldl_insert (xs : List Number) : ∀ {set : List Number}, Ascending set →
    Ascending (xs.foldl (fun set x => Number.insert x set) set) := by
  induction xs with
  | nil => exact fun h => h
  | cons x xs ih => exact fun h => ih (h.insert x)

theorem distinct_ascending (xs : List Number) : Ascending (distinct xs) :=
  Ascending.foldl_insert xs List.Pairwise.nil

theorem foldl_insert_subset (xs : List Number) : ∀ {set : List Number},
    ∀ y ∈ xs.foldl (fun set x => insert x set) set, y ∈ set ∨ y ∈ xs := by
  induction xs with
  | nil => exact fun y hy => .inl hy
  | cons x xs ih =>
    intro set y hy
    obtain hy | hy := ih y hy
    · obtain rfl | hy := insert_subset x set y hy
      · exact .inr List.mem_cons_self
      · exact .inl hy
    · exact .inr (List.mem_cons_of_mem x hy)

theorem mem_of_mem_distinct {xs : List Number} {y : Number} (h : y ∈ distinct xs) : y ∈ xs := by
  simpa using foldl_insert_subset xs y h

theorem mem_foldl_insert (xs : List Number) : ∀ {set : List Number} {y : Number}, y ∈ set →
    y ∈ xs.foldl (fun set x => insert x set) set := by
  induction xs with
  | nil => exact fun h => h
  | cons x xs ih => exact fun h => ih (mem_insert_of_mem h)

/-- Every number of a list has its place among the distinct ones. -/
theorem exists_mem_distinct {xs : List Number} {x : Number} (h : x ∈ xs) :
    ∃ y ∈ distinct xs, y.place = x.place := by
  obtain ⟨before, after, rfl⟩ := List.append_of_mem h
  obtain ⟨y, hy, hplace⟩ := exists_mem_insert x (distinct before)
  refine ⟨y, ?_, hplace⟩
  rw [distinct, List.foldl_append, List.foldl_cons]
  exact mem_foldl_insert after hy

/-! ### Sorted lists -/

theorem le_iff {a b : Number} : a.le b = true ↔ a.place ≤ b.place := by
  rw [le, decide_eq_true_iff, ne_eq, compare_eq_gt, not_lt]

theorem pairwise_sort (xs : List Number) :
    (sort xs).Pairwise fun a b => a.place ≤ b.place := by
  have hsorted : (sort xs).Pairwise fun a b => a.le b = true := by
    apply List.pairwise_mergeSort
    · exact fun a b c hab hbc => le_iff.mpr ((le_iff.mp hab).trans (le_iff.mp hbc))
    · intro a b
      rw [Bool.or_eq_true, le_iff, le_iff]
      exact le_total a.place b.place
  exact hsorted.imp le_iff.mp

theorem dedup_cons (x : Number) (xs : List Number) :
    ∃ ys, dedup (x :: xs) = x :: ys ∧
      (dedup xs = ys ∨ ∃ y, dedup xs = y :: ys ∧ x.place = y.place) := by
  rw [dedup]
  cases hxs : dedup xs with
  | nil => exact ⟨[], rfl, .inl rfl⟩
  | cons y ys =>
    dsimp only
    split_ifs with hsame
    · exact ⟨ys, rfl, .inr ⟨y, rfl, same_iff.mp hsame⟩⟩
    · exact ⟨y :: ys, rfl, .inl rfl⟩

theorem mem_of_mem_dedup {xs : List Number} {y : Number} (h : y ∈ dedup xs) : y ∈ xs := by
  induction xs with
  | nil => exact h
  | cons x xs ih =>
    obtain ⟨ys, hys, hrest⟩ := dedup_cons x xs
    rw [hys] at h
    rcases List.mem_cons.mp h with rfl | h
    · exact List.mem_cons_self
    · apply List.mem_cons_of_mem x (ih _)
      rcases hrest with hrest | ⟨z, hrest, -⟩
      · rwa [hrest]
      · rw [hrest]
        exact List.mem_cons_of_mem z h

/-- What is dropped equals what stands in front of it. -/
theorem exists_mem_dedup {xs : List Number} {x : Number} (h : x ∈ xs) :
    ∃ y ∈ dedup xs, y.place = x.place := by
  induction xs with
  | nil => cases h
  | cons z xs ih =>
    obtain ⟨ys, hys, hrest⟩ := dedup_cons z xs
    rw [hys]
    rcases List.mem_cons.mp h with rfl | h
    · exact ⟨x, List.mem_cons_self, rfl⟩
    · obtain ⟨y, hy, hplace⟩ := ih h
      rcases hrest with hrest | ⟨w, hrest, hsame⟩
      · exact ⟨y, List.mem_cons_of_mem z (hrest ▸ hy), hplace⟩
      · rw [hrest] at hy
        rcases List.mem_cons.mp hy with rfl | hy
        · exact ⟨z, List.mem_cons_self, hsame.trans hplace⟩
        · exact ⟨y, List.mem_cons_of_mem z hy, hplace⟩

/-- In a sorted list equal numbers are neighbours, so that only one of them is left. -/
theorem dedup_ascending {xs : List Number} (h : xs.Pairwise fun a b => a.place ≤ b.place) :
    Ascending (dedup xs) := by
  induction xs with
  | nil => exact .nil
  | cons x xs ih =>
    obtain ⟨hx, hxs⟩ := List.pairwise_cons.mp h
    have hascending := ih hxs
    have hle : ∀ y ∈ dedup xs, x.place ≤ y.place := fun y hy => hx y (mem_of_mem_dedup hy)
    rw [dedup]
    cases hys : dedup xs with
    | nil => exact List.pairwise_singleton _ x
    | cons y ys =>
      rw [hys] at hascending hle
      obtain ⟨hy, hlater⟩ := List.pairwise_cons.mp hascending
      obtain ⟨hfirst, -⟩ := List.forall_mem_cons.mp hle
      dsimp only
      split_ifs with hsame
      · rw [Ascending, List.pairwise_cons, same_iff.mp hsame]
        exact ⟨hy, hlater⟩
      · have hlt : x.place < y.place := lt_of_le_of_ne hfirst fun h => hsame (same_iff.mpr h)
        refine List.pairwise_cons.mpr ⟨List.forall_mem_cons.mpr ⟨hlt, ?_⟩, hascending⟩
        exact fun z hz => hlt.trans (hy z hz)

end JustIntonation.Number
