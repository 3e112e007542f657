/-
JustIntonation/Proofs/Binary64/Format.lean

The characters that numbers are written with.

In every layout a double is written with digits and a few signs and letters
(`isNumberChar_format`), and so is an integer.  Whatever none of these
characters is, a blank or a comma, does not stand in a number.
-/
import JustIntonation.Binary64.Shortest
import JustIntonation.Proofs.Text.Digits
import Mathlib.Data.Bool.AllAny
import Mathlib.Tactic.SplitIfs

namespace JustIntonation

/-- A digit, a sign, a point, or a letter of `e`, `inf` and `NaN`. -/
def IsNumberChar (c : Char) : Prop := c.isDigit = true ∨ c ∈ "-.einfNa".toList

instance (c : Char) : Decidable (IsNumberChar c) := inferInstanceAs (Decidable (_ ∨ _))

theorem isNumberChar_toDigits (n : Nat) : ∀ c ∈ Nat.toDigits 10 n, IsNumberChar c :=
  fun _ hc => .inl (Text.isDigit_of_mem_toDigits hc)

theorem isNumberChar_int (n : Int) : ∀ c ∈ (toString n).toList, IsNumberChar c := by
  intro c hc
  rcases Text.isDigit_or_of_mem_toString hc with hc | rfl
  · exact .inl hc
  · exact .inr (by decide)

/-- A character that is no digit and none of those that doubles have beside digits. -/
theorem not_isNumberChar {c : Char} (hdigit : c.isDigit = false) (hc : c ∉ "-.einfNa".toList) :
    ¬ IsNumberChar c := by
  rw [IsNumberChar, hdigit]
  simpa using hc

namespace Binary64

theorem isNumberChar_pointed {ds : List Char} (h : ∀ c ∈ ds, IsNumberChar c) (whole : Int) :
    (∀ c ∈ (pointed ds whole).1, IsNumberChar c) ∧ ∀ c ∈ (pointed ds whole).2, IsNumberChar c := by
  have hzero : IsNumberChar '0' := .inl rfl
  have hzeros : ∀ count, ∀ c ∈ List.replicate count '0', IsNumberChar c := by
    intro count c hc
    rw [List.eq_of_mem_replicate hc]
    exact hzero
  rw [pointed]
  split_ifs
  · exact ⟨List.forall_mem_singleton.mpr hzero, List.forall_mem_append.mpr ⟨hzeros _, h⟩⟩
  · exact ⟨List.forall_mem_append.mpr ⟨fun c hc => h c (List.mem_of_mem_take hc), hzeros _⟩,
      fun c hc => h c (List.mem_of_mem_drop hc)⟩

theorem pointed_ne_nil (ds : List Char) (whole : Int) : (pointed ds whole).1 ≠ [] := by
  rw [pointed]
  split_ifs with hwhole
  · exact List.cons_ne_nil _ _
  · intro hnil
    have hlength := congrArg List.length hnil
    simp only [List.length_append, List.length_take, List.length_replicate, List.length_nil]
      at hlength
    omega

/-- Digits in front of a point, and behind it if there are any. -/
theorem isNumberChar_whole_append {whole shown : List Char} (hwhole : ∀ c ∈ whole, IsNumberChar c)
    (hshown : ∀ c ∈ shown, IsNumberChar c) :
    ∀ c ∈ (if shown.isEmpty then whole else whole ++ '.' :: shown), IsNumberChar c := by
  split_ifs
  · exact hwhole
  · exact List.forall_mem_append.mpr
      ⟨hwhole, List.forall_mem_cons.mpr ⟨.inr (by decide), hshown⟩⟩

theorem isNumberChar_digitsText (layout : Layout) (d : Decimal) :
    ∀ c ∈ (layout.digitsText d).toList, IsNumberChar c := by
  have hdigits : ∀ c ∈ Decimal.digits d.significand, IsNumberChar c :=
    isNumberChar_toDigits d.significand
  rw [Layout.digitsText]
  dsimp only
  split
  · -- Positional: digits and a point.
    obtain ⟨hwhole, hfraction⟩ := isNumberChar_pointed hdigits
      (d.exponent + (Decimal.digits d.significand).length - 1 + 1)
    rw [String.toList_ofList]
    apply isNumberChar_whole_append hwhole
    split_ifs
    · exact isNumberChar_toDigits 0
    · exact hfraction
  · -- With an exponent: a mantissa, the `e` and an integer.
    rw [String.toList_append, String.toList_append, String.toList_ofList]
    refine List.forall_mem_append.mpr ⟨List.forall_mem_append.mpr ⟨?_, ?_⟩, isNumberChar_int _⟩
    · cases hds : Decimal.digits d.significand with
      | nil => exact nofun
      | cons first rest =>
        rw [hds] at hdigits
        obtain ⟨hfirst, hrest⟩ := List.forall_mem_cons.mp hdigits
        dsimp only
        split_ifs
        · exact List.forall_mem_singleton.mpr hfirst
        · exact List.forall_mem_cons.mpr
            ⟨hfirst, List.forall_mem_cons.mpr ⟨.inr (by decide), hrest⟩⟩
    · exact List.forall_mem_singleton.mpr (.inr (by decide))

theorem isNumberChar_format (layout : Layout) (x : Binary64) :
    ∀ c ∈ (x.format layout).toList, IsNumberChar c := by
  have hletters : ∀ word ∈ ["NaN", "inf", "0.0", "0", "-", ""], ∀ c ∈ word.toList,
      IsNumberChar c := by
    simp only [← List.all_iff_forall_prop]
    decide
  have hsign : ∀ c ∈ (if x.negative then "-" else "").toList, IsNumberChar c := by
    split_ifs
    · exact hletters "-" (by decide)
    · exact hletters "" (by decide)
  have hword : ∀ {word : String}, (∀ c ∈ word.toList, IsNumberChar c) →
      ∀ c ∈ ((if x.negative then "-" else "") ++ word).toList, IsNumberChar c := by
    intro word hword
    rw [String.toList_append]
    exact List.forall_mem_append.mpr ⟨hsign, hword⟩
  simp only [format]
  split
  · exact hletters "NaN" (by decide)
  split
  · exact hword (hletters "inf" (by decide))
  split
  · apply hword
    split_ifs
    · exact hletters "0.0" (by decide)
    · exact hletters "0" (by decide)
  · exact hword (isNumberChar_digitsText layout _)

/-- Some character is written for every double. -/
theorem format_ne_empty (layout : Layout) (x : Binary64) : (x.format layout).toList ≠ [] := by
  have hpoint : ∀ {whole shown : List Char}, whole ≠ [] →
      (if shown.isEmpty then whole else whole ++ '.' :: shown) ≠ [] := by
    intro whole shown hwhole
    split_ifs
    · exact hwhole
    · exact List.append_ne_nil_of_left_ne_nil hwhole _
  have hdigits : ∀ d, (layout.digitsText d).toList ≠ [] := by
    intro d
    rw [Layout.digitsText]
    dsimp only
    split
    · rw [String.toList_ofList]
      exact hpoint (pointed_ne_nil _ _)
    · simp
  simp only [format]
  split
  · decide
  split
  · simp
  split
  · split_ifs <;> simp
  · rw [String.toList_append]
    exact List.append_ne_nil_of_right_ne_nil _ (hdigits _)

end Binary64

end JustIntonation
