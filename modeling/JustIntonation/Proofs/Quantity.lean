/-
JustIntonation/Proofs/Quantity.lean

The values of products.

A product keeps its factors apart, and its value multiplies them
(`Product.value_eq_prod`).  So factors in front of an exact quantity multiply
its value (`Quantity.exists_scaled`).
-/
import JustIntonation.Fault
import Mathlib.Algebra.BigOperators.Group.List.Basic
import Mathlib.Algebra.Field.Rat
import Mathlib.Data.Rat.Lemmas

namespace JustIntonation

theorem Product.value_eq_prod (rs : List Ratio) :
    (Product.mk rs).value = (rs.map Ratio.value).prod := by
  rw [Product.value, List.prod_eq_foldl, List.foldl_map]

theorem Product.value_append (p q : Product) : (p ++ q).value = p.value * q.value := by
  obtain ⟨ps⟩ := p
  obtain ⟨qs⟩ := q
  show (Product.mk (ps ++ qs)).value = _
  rw [value_eq_prod, value_eq_prod, value_eq_prod, List.map_append, List.prod_append]

theorem Product.value_single (r : Ratio) : (Product.single r).value = r.value := by
  rw [single, value_eq_prod, List.map_singleton, List.prod_singleton]

/-- An exact quantity takes factors in front of it, and its value is multiplied by theirs. -/
theorem Quantity.exists_scaled {q : Quantity} {a : ℚ} (h : q.value = .exact a)
    (factors : Product) :
    ∃ q', q.scaled factors = .ok q' ∧ q'.value = .exact (factors.value * a) := by
  cases q with
  | ratio r =>
    refine ⟨.product (factors ++ Product.single r), rfl, ?_⟩
    obtain rfl := Number.exact.inj h
    rw [Quantity.value, Product.value_append, Product.value_single]
  | product p =>
    refine ⟨.product (factors ++ p), rfl, ?_⟩
    obtain rfl := Number.exact.inj h
    rw [Quantity.value, Product.value_append]
  | power p => cases h

end JustIntonation
