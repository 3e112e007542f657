/-
JustIntonation/Proofs/Temperament/Steps.lean

The steps of products.

A product is tempered factor by factor.  Whatever the steps of a single factor
are, those of a product are their sum (`productSteps`), so they add up where
factors are put together and do not depend on their order.

Main result: factors put in front of every frequency of a piece raise all its
tempered notes by one and the same number of steps, and leave its rests alone
(`temper_additive`).  The intervals inside a chord are therefore those of the
chord wherever it is transposed to.
-/
import JustIntonation.Notation.Meaning
import JustIntonation.Proofs.Quantity
import JustIntonation.Proofs.Temperament
import Mathlib.Algebra.BigOperators.Group.List.Basic

namespace JustIntonation

open Notation (scaleFrequency)

namespace Temperament

/-! ### Sums of steps -/

/-- The steps of the factors of a product, added up. -/
def productSteps (divisions : Nat) (p : Product) : Int :=
  (p.factors.map (factorSteps divisions)).sum

variable (divisions : Nat)

theorem productSteps_append (p q : Product) :
    productSteps divisions (p ++ q) = productSteps divisions p + productSteps divisions q := by
  show ((p.factors ++ q.factors).map (factorSteps divisions)).sum = _
  rw [List.map_append, List.sum_append]
  rfl

theorem productSteps_perm {p q : Product} (h : p.factors.Perm q.factors) :
    productSteps divisions p = productSteps divisions q := (h.map _).sum_eq

end Temperament

open Temperament

/-! ### Notes -/

/-- A note whose frequency is a product, moved to some number of steps. -/
def Note.atSteps (divisions : Nat) (n : Note) (steps : Int) : Note :=
  { n with frequency := .power ⟨2, steps, divisions⟩ }

/-- What stands in place of a note in a piece that has been raised and then tempered: a rest where
there was one, and otherwise the note that tempering alone would have put there, so many steps
higher. -/
inductive Note.Raised (divisions : Nat) (shift : Int) (n : Note) : Note → Prop
  | rest {frequency} (silent : n.isRest = true) (kept : n.temper divisions = .ok n)
      (zero : frequency.value.isZero = true) :
      Raised divisions shift n { n with frequency }
  | pitch {steps} (sounds : n.isRest = false)
      (tempered : n.temper divisions = .ok (n.atSteps divisions steps)) :
      Raised divisions shift n (n.atSteps divisions (steps + shift))

section Notes

variable {divisions : Nat} {n : Note} {p : Product}

theorem Note.isRest_of_product (hn : n.frequency = .product p) :
    n.isRest = decide (p.value = 0) := by
  rw [Note.isRest, hn]
  rfl

theorem Note.temper_of_product (h : 0 < divisions) (hn : n.frequency = .product p)
    (hp : p.value ≠ 0) :
    n.temper divisions = .ok (n.atSteps divisions (productSteps divisions p)) := by
  have hsteps : frequencySteps divisions n.frequency = some (productSteps divisions p) := by
    rw [hn]
    exact if_neg hp
  rw [Note.temper, if_neg h.ne', hsteps]
  rfl

theorem Note.temper_of_zero (h : 0 < divisions) (hn : n.frequency = .product p)
    (hp : p.value = 0) : n.temper divisions = .ok n := by
  have hsteps : frequencySteps divisions n.frequency = none := by
    rw [hn]
    exact if_pos hp
  rw [Note.temper, if_neg h.ne', hsteps]

/-- A note is raised by the steps of the factors in front of it, if they are not zero. -/
theorem Note.raised_of_scaled (h : 0 < divisions) (hn : n.frequency = .product p) {k : Product}
    (hk : k.value ≠ 0) :
    ∃ m, Note.temper divisions { n with frequency := .product (k ++ p) } = .ok m ∧
      n.Raised divisions (productSteps divisions k) m := by
  by_cases hp : p.value = 0
  · have hzero : (k ++ p).value = 0 := by rw [Product.value_append, hp, mul_zero]
    refine ⟨_, Note.temper_of_zero h rfl hzero, .rest ?_ (Note.temper_of_zero h hn hp) ?_⟩
    · rw [Note.isRest_of_product hn]
      exact decide_eq_true hp
    · exact decide_eq_true hzero
  · have hne : (k ++ p).value ≠ 0 := by
      rw [Product.value_append]
      exact mul_ne_zero hk hp
    refine ⟨_, Note.temper_of_product h rfl hne, ?_⟩
    rw [productSteps_append, add_comm]
    exact .pitch (by rw [Note.isRest_of_product hn, decide_eq_false hp])
      (Note.temper_of_product h hn hp)

end Notes

/-! ### Pieces -/

section Pieces

variable {divisions : Nat} {piece : Piece} {k : Product}

/-- Factors can be put in front of all products of a piece. -/
theorem Piece.exists_scaled (h : ∀ n ∈ (Music.piece piece).notes, ∃ p, n.frequency = .product p)
    (k : Product) : ∃ scaled, piece.mapNotes (scaleFrequency k) = .ok scaled ∧
      piece.Alike (fun n m => ∃ p, n.frequency = .product p ∧
        m = { n with frequency := .product (k ++ p) }) scaled := by
  apply Piece.exists_alike
  intro n hn
  obtain ⟨p, hp⟩ := h n hn
  refine ⟨_, ?_, p, hp, rfl⟩
  rw [scaleFrequency, hp]
  rfl

/-- Tempering adds up the steps of factors.  A product other than zero is moved to the sum of the
steps that its factors have by themselves; so the steps of two products together are those of the
one and of the other, the order of the factors does not matter, and factors in front of all
frequencies of a piece raise every note in it by their own steps and leave the rests rests. -/
theorem temper_additive (h : 0 < divisions) :
    (∀ (n : Note) (p : Product), n.frequency = .product p → p.value ≠ 0 →
      n.temper divisions = .ok (n.atSteps divisions (p.factors.map (factorSteps divisions)).sum)) ∧
    (∀ (n : Note) (p q : Product), n.frequency = .product (p ++ q) → p.value ≠ 0 → q.value ≠ 0 →
      n.temper divisions
        = .ok (n.atSteps divisions (productSteps divisions p + productSteps divisions q))) ∧
    (∀ p q : Product, p.factors.Perm q.factors →
      p.value = q.value ∧ productSteps divisions p = productSteps divisions q) ∧
    ∀ (piece : Piece) (k : Product),
      (∀ n ∈ (Music.piece piece).notes, ∃ p, n.frequency = .product p) → k.value ≠ 0 →
      ∃ scaled raised, piece.mapNotes (scaleFrequency k) = .ok scaled ∧
        scaled.temper (some divisions) = .ok raised ∧
        piece.Alike (Note.Raised divisions (productSteps divisions k)) raised := by
  refine ⟨fun n p hn hp => Note.temper_of_product h hn hp, ?_, ?_, ?_⟩
  · intro n p q hn hp hq
    rw [← productSteps_append]
    apply Note.temper_of_product h hn
    rw [Product.value_append]
    exact mul_ne_zero hp hq
  · intro p q hperm
    refine ⟨?_, productSteps_perm divisions hperm⟩
    rw [Product.value_eq_prod, Product.value_eq_prod]
    exact (hperm.map _).prod_eq
  · intro piece k hpiece hk
    obtain ⟨scaled, hscaled, halike⟩ := Piece.exists_scaled hpiece k
    have hnotes : ∀ m ∈ (Music.piece scaled).notes, ∃ m', m.temper divisions = .ok m' ∧
        m.temper divisions = .ok m' := by
      intro m _
      obtain ⟨m', hm'⟩ := Note.exists_temper h.ne' m
      exact ⟨m', hm', hm'⟩
    obtain ⟨raised, hraised, halike'⟩ := Piece.exists_alike hnotes
    refine ⟨scaled, raised, hscaled, hraised, (halike.comp halike').imp ?_⟩
    rintro n m' ⟨m, ⟨p, hp, rfl⟩, hm'⟩
    obtain ⟨m'', hm'', hr⟩ := Note.raised_of_scaled h hp hk
    obtain rfl := Except.ok.inj (hm''.symm.trans hm')
    exact hr

/-- The harmonics 1, 5 and 11 of a tone together, and then a rest. -/
def harmonicsAndRest : Piece :=
  let note (r : Ratio) : Note := ⟨.product (.single r), .product (.single (.ofInt 1)), .one⟩
  ⟨[⟨[.chord [note (.ofInt 1), note (.ofInt 5), note (.ofInt 11)], .note (note (.ofInt 0))]⟩]⟩

/-- Lower by a comma, they keep their intervals in twelve divisions, although the highest of them
would by itself lie nearer to another step. -/
theorem temper_additive_harmonics : 0 < 12 ∧
    (∀ n ∈ (Music.piece harmonicsAndRest).notes, ∃ p, n.frequency = .product p) ∧
    (Product.single (.ofTerms 80 81 (by decide))).value ≠ 0 ∧
    ∃ scaled raised,
      harmonicsAndRest.mapNotes (scaleFrequency (.single (.ofTerms 80 81 (by decide))))
        = .ok scaled ∧
      scaled.temper (some 12) = .ok raised ∧
      harmonicsAndRest.Alike
        (Note.Raised 12 (productSteps 12 (.single (.ofTerms 80 81 (by decide))))) raised := by
  have hproducts : ∀ n ∈ (Music.piece harmonicsAndRest).notes, ∃ p, n.frequency = .product p := by
    intro n hn
    simp only [harmonicsAndRest, Music.notes, Event.notes, List.flatMap_cons, List.flatMap_nil,
      List.append_nil, List.mem_append, List.mem_cons, List.not_mem_nil, or_false] at hn
    rcases hn with (rfl | rfl | rfl) | rfl
    all_goals exact ⟨_, rfl⟩
  have hcomma : (Product.single (.ofTerms 80 81 (by decide))).value ≠ 0 := by decide +kernel
  exact ⟨by decide, hproducts, hcomma,
    (temper_additive (by decide)).2.2.2 harmonicsAndRest _ hproducts hcomma⟩

end Pieces

end JustIntonation
