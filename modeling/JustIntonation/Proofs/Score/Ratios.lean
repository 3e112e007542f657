/-
JustIntonation/Proofs/Score/Ratios.lean

How the ratios of a frequency are taken apart in a score.

A frequency that is not tempered is the product of its ratios.  A note splits
off the last of them (`splitLast_mul`).  A chord splits off what its members
share: the longest list of ratios that all of them begin with
(`IsLongestShared`), whatever their numbers of ratios are.  That is found by
counting, so the counts are characterized first (`le_sharedByAll_iff`).

Main result: the shared part is the longest, and with what is left of a member
it multiplies to the frequency of the member (`exists_splitShared`).
-/
import JustIntonation.Proofs.Quantity
import JustIntonation.Score.Document
import Mathlib.Data.List.Forall2

namespace JustIntonation.Score

/-! ### Factors -/

/-- The ratios that a frequency is written with, in their order, as rationals. -/
def factorValues (q : Quantity) : List ℚ := ((factorsOf q).getD []).map Ratio.value

theorem factorValues_of_factorsOf {q : Quantity} {factors : List Ratio}
    (h : factorsOf q = some factors) : factorValues q = factors.map Ratio.value := by
  rw [factorValues, h, Option.getD_some]

/-- Only a tempered frequency has no ratios. -/
theorem factorsOf_eq_none {q : Quantity} : factorsOf q = none ↔ ∃ p, q = .power p := by
  cases q <;> simp [factorsOf]

/-- A frequency that is not tempered is the product of its ratios. -/
theorem value_of_factorsOf {q : Quantity} {factors : List Ratio}
    (h : factorsOf q = some factors) : q.value = .exact (factors.map Ratio.value).prod := by
  cases q with
  | ratio r =>
    obtain rfl := Option.some.inj h
    rw [Quantity.value, List.map_singleton, List.prod_singleton]
  | product p =>
    obtain rfl := Option.some.inj h
    rw [Quantity.value, Product.value_eq_prod]
  | power p => cases h

theorem splitLast_mul (factors : List Ratio) :
    (splitLast factors).1 * (splitLast factors).2 = (factors.map Ratio.value).prod := by
  rw [splitLast, Product.value_eq_prod]
  rcases List.eq_nil_or_concat factors with rfl | ⟨front, last, rfl⟩
  · simp
  · rw [List.concat_eq_append, List.dropLast_concat, List.getLast?_concat, Option.map_some,
      Option.getD_some, List.map_append, List.prod_append, List.map_singleton,
      List.prod_singleton]

/-! ### What lists share -/

/-- The longest list that all of some lists begin with. -/
structure IsLongestShared (shared : List ℚ) (lists : List (List ℚ)) : Prop where
  begins : ∀ l ∈ lists, shared <+: l
  longest : ∀ other, (∀ l ∈ lists, other <+: l) → other.length ≤ shared.length

theorem le_sharedCount_iff {as bs : List Ratio} {k : ℕ} : k ≤ sharedCount as bs ↔
    k ≤ as.length ∧ (as.map Ratio.value).take k <+: bs.map Ratio.value := by
  induction as generalizing bs k with
  | nil => simp [sharedCount]
  | cons a as ih =>
    cases k with
    | zero => simp
    | succ k =>
      cases bs with
      | nil => simp [sharedCount]
      | cons b bs =>
        rw [sharedCount, List.map_cons, List.map_cons, List.take_succ_cons,
          List.cons_prefix_cons, List.length_cons]
        split_ifs with hsame
        · rw [Nat.add_le_add_iff_right, Nat.add_le_add_iff_right, ih]
          simp [hsame]
        · simp [hsame]

theorem le_foldl_min_iff {first : List Ratio} {rest : List (List Ratio)} {k n : ℕ} :
    k ≤ rest.foldl (fun n other => min n (sharedCount first other)) n ↔
      k ≤ n ∧ ∀ other ∈ rest, k ≤ sharedCount first other := by
  induction rest generalizing n with
  | nil => simp
  | cons other rest ih =>
    rw [List.foldl_cons, ih, le_min_iff, List.forall_mem_cons, and_assoc]

/-- So many ratios are shared by all lists as the first one has and the others begin with. -/
theorem le_sharedByAll_iff {first : List Ratio} {rest : List (List Ratio)} {k : ℕ} :
    k ≤ sharedByAll (first :: rest) ↔ k ≤ first.length ∧
      ∀ other ∈ first :: rest, (first.map Ratio.value).take k <+: other.map Ratio.value := by
  rw [sharedByAll, le_foldl_min_iff, List.forall_mem_cons]
  simp only [le_sharedCount_iff]
  constructor
  · rintro ⟨hlength, hrest⟩
    exact ⟨hlength, List.take_prefix _ _, fun other hother => (hrest other hother).2⟩
  · rintro ⟨hlength, -, hrest⟩
    exact ⟨hlength, fun other hother => ⟨hlength, hrest other hother⟩⟩

/-- The shared ratios are the longest list that all members begin with, and for each member they
and the ratio that is left multiply to what it is. -/
theorem exists_splitShared {members : List (List Ratio)} (hne : members ≠ []) :
    ∃ shared, IsLongestShared shared (members.map fun factors => factors.map Ratio.value) ∧
      (splitShared members).1 = shared.prod ∧
      List.Forall₂ (fun factors q => (splitShared members).1 * q = (factors.map Ratio.value).prod)
        members (splitShared members).2 := by
  obtain ⟨first, rest, rfl⟩ := List.exists_cons_of_ne_nil hne
  obtain ⟨hlength, hbegins⟩ := le_sharedByAll_iff.mp (le_refl (sharedByAll (first :: rest)))
  have hbase : (splitShared (first :: rest)).1
      = ((first.map Ratio.value).take (sharedByAll (first :: rest))).prod := by
    rw [splitShared, Product.value_eq_prod, List.map_take]
    rfl
  have htake : ((first.map Ratio.value).take (sharedByAll (first :: rest))).length
      = sharedByAll (first :: rest) := by
    rw [List.length_take, List.length_map, min_eq_left hlength]
  refine ⟨(first.map Ratio.value).take (sharedByAll (first :: rest)), ⟨?_, ?_⟩, hbase, ?_⟩
  · rw [List.forall_mem_map]
    exact hbegins
  · intro other hother
    rw [List.forall_mem_map] at hother
    -- What all members begin with is a beginning of the first, so that its length is counted.
    have hfirst := hother first List.mem_cons_self
    rw [htake, le_sharedByAll_iff]
    refine ⟨by simpa using hfirst.length_le, ?_⟩
    rw [← List.prefix_iff_eq_take.mp hfirst]
    exact hother
  · rw [hbase]
    generalize (first.map Ratio.value).take (sharedByAll (first :: rest)) = shared
      at hbegins htake
    rw [splitShared, List.forall₂_map_right_iff, List.forall₂_same]
    intro factors hfactors
    have hsplit := List.prefix_iff_eq_append.mp (hbegins factors hfactors)
    rw [Product.value_eq_prod, ← htake, List.map_drop, ← List.prod_append, hsplit]

end JustIntonation.Score
