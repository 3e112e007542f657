/-
JustIntonation/Proofs/Text/Digits.lean

Decimal digits, written and read.

Several readers take digits apart, each with a sum of its own; on digits they
are all the same sum, `Nat.ofDigitChars` (`valueOf_eq`, `digitsValue_eq`), and
so all of them read what `Nat.toDigits` writes.
-/
import JustIntonation.Binary64.Reading
import JustIntonation.Text.Digits
import Mathlib.Algebra.Group.Nat.Defs
import Mathlib.Data.List.Basic

namespace JustIntonation

/-- A run of characters that pass a test, up to the first that does not. -/
theorem takeWhile_append_of_all {cs rest : List Char} {test : Char → Bool}
    (h : ∀ c ∈ cs, test c = true) (hrest : ∀ c ∈ rest.head?, test c = false) :
    (cs ++ rest).takeWhile test = cs ∧ (cs ++ rest).dropWhile test = rest := by
  rw [List.takeWhile_append_of_pos h, List.dropWhile_append_of_pos h]
  cases rest with
  | nil => exact ⟨List.append_nil cs, rfl⟩
  | cons c rest =>
    have hc := hrest c rfl
    rw [List.takeWhile_cons_of_neg (by simp [hc]), List.dropWhile_cons_of_neg (by simp [hc])]
    exact ⟨List.append_nil cs, rfl⟩

namespace Text

/-! ### What digits denote -/

theorem hexValue?_of_isDigit {c : Char} (h : c.isDigit = true) :
    hexValue? c = some (c.toNat - '0'.toNat) := by
  rw [hexValue?, if_pos h]

theorem isDigitOf_of_isDigit {c : Char} (h : c.isDigit = true) : isDigitOf 10 c = true := by
  have hrange := Char.isDigit_iff_toNat.mp h
  have hnine : '9'.toNat = '0'.toNat + 9 := rfl
  rw [isDigitOf, hexValue?_of_isDigit h, Option.any_some, decide_eq_true_eq]
  omega

theorem valueOf_eq {ds : List Char} (h : ∀ d ∈ ds, d.isDigit = true) :
    valueOf 10 ds = Nat.ofDigitChars 10 ds 0 := by
  have hfold : ∀ n, ds.foldl (fun n c => 10 * n + (hexValue? c).getD 0) n
      = Nat.ofDigitChars 10 ds n := by
    induction ds with
    | nil => exact fun n => rfl
    | cons d ds ih =>
      intro n
      obtain ⟨hd, hds⟩ := List.forall_mem_cons.mp h
      rw [List.foldl_cons, hexValue?_of_isDigit hd, Nat.ofDigitChars_cons]
      exact ih hds _
  exact hfold 0

theorem digitsValue_eq (ds : List Char) :
    Binary64.digitsValue ds = Nat.ofDigitChars 10 ds 0 := by
  rw [Binary64.digitsValue, Nat.ofDigitChars_eq_foldl]

/-- Zeros in front of digits do not count. -/
theorem ofDigitChars_zeros_append (count : Nat) (ds : List Char) :
    Nat.ofDigitChars 10 (List.replicate count '0' ++ ds) 0 = Nat.ofDigitChars 10 ds 0 := by
  rw [Nat.ofDigitChars_append, Nat.ofDigitChars_replicate_zero, Nat.mul_zero]

/-- Zeros behind digits are powers of ten. -/
theorem ofDigitChars_append_zeros (ds : List Char) (count : Nat) :
    Nat.ofDigitChars 10 (ds ++ List.replicate count '0') 0
      = 10 ^ count * Nat.ofDigitChars 10 ds 0 := by
  rw [Nat.ofDigitChars_append, Nat.ofDigitChars_replicate_zero]

/-! ### The digits of a number -/

theorem isDigit_of_mem_toDigits {n : Nat} {c : Char} (h : c ∈ Nat.toDigits 10 n) :
    c.isDigit = true :=
  Nat.isDigit_of_mem_toDigits (by decide) (Nat.le_refl 10) h

theorem toList_toString (n : Nat) : (toString n).toList = Nat.toDigits 10 n := by
  rw [Nat.toString_eq_repr, Nat.toList_repr]

/-- The first digit of a number above zero is no zero. -/
theorem head?_toDigits_ne {n : Nat} (hn : n ≠ 0) : (Nat.toDigits 10 n).head? ≠ some '0' := by
  induction n using Nat.strongRecOn with
  | _ n ih =>
    by_cases hlt : n < 10
    · have hdigit : ∀ m < 10, m ≠ 0 → some m.digitChar ≠ some '0' := by decide
      rw [Nat.toDigits_of_lt_base hlt]
      exact hdigit n hlt hn
    · -- The last digit stands behind those of a smaller number.
      rw [Nat.toDigits_of_base_le (by decide) (Nat.le_of_not_lt hlt),
        List.head?_append_of_ne_nil _ Nat.toDigits_ne_nil]
      exact ih (n / 10) (by omega) (by omega)

/-! ### The text of an integer -/

theorem toList_toString_ofNat (n : Nat) :
    (toString (Int.ofNat n)).toList = Nat.toDigits 10 n := toList_toString n

theorem toList_toString_negSucc (n : Nat) :
    (toString (Int.negSucc n)).toList = '-' :: Nat.toDigits 10 (n + 1) := by
  have hsign : toString (Int.negSucc n) = "-" ++ toString (n + 1) := rfl
  rw [hsign, String.toList_append, toList_toString]
  rfl

/-- The text of an integer is digits, behind a minus sign or not. -/
theorem isDigit_or_of_mem_toString {c : Char} {e : Int} (h : c ∈ (toString e).toList) :
    c.isDigit = true ∨ c = '-' := by
  cases e with
  | ofNat n =>
    rw [toList_toString_ofNat] at h
    exact .inl (isDigit_of_mem_toDigits h)
  | negSucc n =>
    rw [toList_toString_negSucc, List.mem_cons] at h
    exact h.symm.imp_left isDigit_of_mem_toDigits

end Text

end JustIntonation
