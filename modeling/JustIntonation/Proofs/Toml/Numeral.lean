/-
JustIntonation/Proofs/Toml/Numeral.lean

Numbers as they are written.

A written number that is no integer is a *numeral*: digits, perhaps digits
behind a point, perhaps an exponent, and one of the two at least.  The layout
`general` writes a decimal as such a numeral, positional or with an exponent,
and keeps its value (`exists_numeral`).

What numerals and whole numbers have in common (`IsNumeric`) tells them from
everything else that may stand unquoted.
-/
import JustIntonation.Binary64.Shortest
import JustIntonation.Proofs.Text.Digits
import Mathlib.Algebra.Order.Field.Rat
import Mathlib.Data.List.TakeWhile
import Mathlib.Tactic.Ring

namespace JustIntonation.Toml

open Text

/-! ### Digits in front of a point -/

/-- Digits that may stand in front of a point: there are some, and none follow a leading zero. -/
def IsWhole (ds : List Char) : Prop := ∃ d rest, ds = d :: rest ∧ (d = '0' → rest = [])

theorem isWhole_of_head? {ds : List Char} (hne : ds ≠ []) (h : ds.head? ≠ some '0') :
    IsWhole ds := by
  cases ds with
  | nil => exact absurd rfl hne
  | cons d ds => exact ⟨d, ds, rfl, fun hd => absurd (congrArg some hd) h⟩

theorem isWhole_toDigits (n : ℕ) : IsWhole (Nat.toDigits 10 n) := by
  rcases eq_or_ne n 0 with rfl | hn
  · exact ⟨'0', [], rfl, fun _ => rfl⟩
  · exact isWhole_of_head? Nat.toDigits_ne_nil (head?_toDigits_ne hn)

/-! ### Numerals -/

/-- Digits, digits behind a point, and an exponent. -/
structure Numeral where
  whole : List Char
  fraction : List Char
  exponent : Option Int

namespace Numeral

def digits (n : Numeral) : List Char := n.whole ++ n.fraction

/-- The power of ten that the last digit counts. -/
def place (n : Numeral) : Int := n.exponent.getD 0 - n.fraction.length

def value (n : Numeral) : ℚ := Nat.ofDigitChars 10 n.digits 0 * 10 ^ n.place

/-- The exponent with its letter. -/
def tail (n : Numeral) : List Char := n.exponent.elim [] fun e => 'e' :: (toString e).toList

def chars (n : Numeral) : List Char :=
  n.whole ++ ((if n.fraction = [] then [] else '.' :: n.fraction) ++ n.tail)

/-- A numeral that is no integer. -/
structure Proper (n : Numeral) : Prop where
  digits : ∀ d ∈ n.digits, d.isDigit = true
  whole : IsWhole n.whole
  noInteger : n.fraction ≠ [] ∨ n.exponent ≠ none

theorem Proper.isDigit {n : Numeral} (h : n.Proper) :
    (∀ d ∈ n.whole, d.isDigit = true) ∧ ∀ d ∈ n.fraction, d.isDigit = true :=
  List.forall_mem_append.mp h.digits

end Numeral

/-! ### Writing -/

section Writing

variable {n : Numeral} {d : Decimal}

/-- A numeral whose digits are those of a number, perhaps with zeros on either side. -/
structure Numeral.Shows (n : Numeral) (significand : ℕ) (exponent : ℤ) : Prop where
  digits : ∃ front back, n.digits = List.replicate front '0' ++
      (Nat.toDigits 10 significand ++ List.replicate back '0') ∧ n.place + back = exponent
  whole : IsWhole n.whole
  noInteger : n.fraction ≠ [] ∨ n.exponent ≠ none

/-- Zeros on either side of digits only change the place of the last one. -/
theorem Numeral.Shows.value_eq {significand : ℕ} {exponent : ℤ}
    (h : n.Shows significand exponent) : n.value = significand * 10 ^ exponent := by
  obtain ⟨front, back, hdigits, hplace⟩ := h.digits
  rw [Numeral.value, hdigits, ofDigitChars_zeros_append, ofDigitChars_append_zeros,
    Nat.ofDigitChars_ten_toDigits, ← hplace, zpow_add₀ (by norm_num), zpow_natCast]
  push_cast
  ring

theorem Numeral.Shows.proper {significand : ℕ} {exponent : ℤ}
    (h : n.Shows significand exponent) : n.Proper := by
  obtain ⟨front, back, hdigits, -⟩ := h.digits
  refine ⟨?_, h.whole, h.noInteger⟩
  intro c hc
  rw [hdigits, List.mem_append, List.mem_append] at hc
  rcases hc with hc | hc | hc
  · rw [List.eq_of_mem_replicate hc]
    rfl
  · exact isDigit_of_mem_toDigits hc
  · rw [List.eq_of_mem_replicate hc]
    rfl

/-- The numeral with the point after `whole` digits of a number. -/
def positional (significand : ℕ) (whole : ℤ) : Numeral :=
  let (whole, fraction) := Binary64.pointed (Nat.toDigits 10 significand) whole
  ⟨whole, if fraction.isEmpty then ['0'] else fraction, none⟩

theorem shows_positional {significand : ℕ} (h : significand ≠ 0) (whole : ℤ) :
    (positional significand whole).Shows significand
      (whole - (Nat.toDigits 10 significand).length) := by
  have hne : Nat.toDigits 10 significand ≠ [] := Nat.toDigits_ne_nil
  have hhead : (Nat.toDigits 10 significand).head? ≠ some '0' := head?_toDigits_ne h
  generalize hds : Nat.toDigits 10 significand = ds at hne hhead
  have hlength : 0 < ds.length := List.length_pos_iff.mpr hne
  rw [positional, hds, Binary64.pointed]
  split_ifs with hwhole
  · -- All digits stand behind the point.
    refine ⟨⟨whole.natAbs + 1, 0, ?_, ?_⟩, ⟨'0', [], rfl, fun _ => rfl⟩, ?_⟩
    · simp [Numeral.digits, hne, hds, List.replicate_succ]
    · simp only [Numeral.place, List.isEmpty_iff, List.append_eq_nil_iff, hne, and_false, if_false,
        List.length_append, List.length_replicate, Option.getD_none]
      omega
    · simp [hne]
  · obtain ⟨count, hcount⟩ : ∃ count, whole.toNat = count := ⟨_, rfl⟩
    have hpos : count ≠ 0 := by omega
    simp only [hcount]
    rcases Nat.lt_or_ge count ds.length with hlt | hge
    · -- The point stands among the digits.
      have hdrop : ds.drop count ≠ [] := by simpa using hlt
      simp only [Nat.sub_eq_zero_of_le hlt.le, List.replicate_zero, List.append_nil,
        List.isEmpty_iff, hdrop, if_false]
      refine ⟨⟨0, 0, ?_, ?_⟩, ?_, .inl hdrop⟩
      · simp [Numeral.digits, hds]
      · simp only [Numeral.place, List.length_drop, Option.getD_none]
        omega
      · refine isWhole_of_head? ?_ ?_
        · simpa [hpos] using hne
        · rwa [List.head?_take, if_neg hpos]
    · -- All digits stand in front of the point.
      simp only [List.take_of_length_le hge, List.drop_of_length_le hge, List.isEmpty_nil, if_true]
      refine ⟨⟨0, count - ds.length + 1, ?_, ?_⟩, ?_, .inl (List.cons_ne_nil '0' [])⟩
      · simp [Numeral.digits, hds, List.replicate_succ']
      · simp only [Numeral.place, List.length_singleton, Option.getD_none]
        omega
      · refine isWhole_of_head? (by simp [hne]) ?_
        rwa [List.head?_append_of_ne_nil _ hne]

/-- The numeral with the point behind the first digit of a number. -/
def scientific (significand : ℕ) (exponent : ℤ) : Numeral :=
  ⟨(Nat.toDigits 10 significand).take 1, (Nat.toDigits 10 significand).drop 1, some exponent⟩

theorem shows_scientific {significand : ℕ} (h : significand ≠ 0) (exponent : ℤ) :
    (scientific significand exponent).Shows significand
      (exponent - ((Nat.toDigits 10 significand).length - 1)) := by
  have hhead := head?_toDigits_ne h
  have hlength := Nat.length_toDigits_pos (b := 10) (n := significand)
  refine ⟨⟨0, 0, ?_, ?_⟩, isWhole_of_head? ?_ ?_, .inr nofun⟩
  · simp only [scientific, Numeral.digits, List.replicate_zero, List.append_nil, List.nil_append,
      List.take_append_drop]
  · simp only [scientific, Numeral.place, List.length_drop, Option.getD_some]
    omega
  · simp [scientific]
  · rwa [scientific, List.head?_take, if_neg (Nat.succ_ne_zero 0)]

/-- A decimal is written as one numeral or the other, by the exponent of its first digit. -/
theorem toList_digitsText {top : ℤ}
    (htop : d.exponent + (Nat.toDigits 10 d.significand).length - 1 = top) :
    (Binary64.general.digitsText d).toList =
      if Binary64.general.positional top then (positional d.significand (top + 1)).chars
      else (scientific d.significand top).chars := by
  have hfraction : Binary64.general.showFraction = true := rfl
  rw [Binary64.Layout.digitsText, Decimal.digits]
  simp only [htop]
  generalize Binary64.general = layout at hfraction ⊢
  by_cases hpositional : layout.positional top = true
  · simp only [hpositional, if_true, hfraction, Bool.and_true, String.toList_ofList, positional]
    generalize Binary64.pointed (Nat.toDigits 10 d.significand) (top + 1) = parts
    obtain ⟨whole, fraction⟩ := parts
    cases fraction <;> simp [Numeral.chars, Numeral.tail]
  · simp only [hpositional, Bool.false_eq_true, if_false, String.toList_append, scientific,
      String.toList_ofList]
    cases Nat.toDigits 10 d.significand with
    | nil => simp [Numeral.chars, Numeral.tail]
    | cons c cs => cases cs <;> simp [Numeral.chars, Numeral.tail]

/-- A decimal is written as a numeral of its value. -/
theorem exists_numeral (h : d.significand ≠ 0) :
    ∃ n : Numeral, (Binary64.general.digitsText d).toList = n.chars ∧ n.Proper ∧
      n.value = d.toRat := by
  have hshown : ∀ n : Numeral, n.Shows d.significand d.exponent → n.Proper ∧ n.value = d.toRat :=
    fun n hn => ⟨hn.proper, hn.value_eq⟩
  obtain ⟨top, htop⟩ :
    ∃ top, d.exponent + (Nat.toDigits 10 d.significand).length - 1 = top := ⟨_, rfl⟩
  rw [toList_digitsText htop]
  split_ifs
  · refine ⟨_, rfl, hshown _ ?_⟩
    convert shows_positional h (top + 1) using 1
    omega
  · refine ⟨_, rfl, hshown _ ?_⟩
    convert shows_scientific h top using 1
    omega

end Writing

/-! ### The look of a number -/

section Look

variable {cs : List Char} {c : Char}

theorem Numeral.head?_tail (n : Numeral) : ∀ c ∈ n.tail.head?, c = '.' ∨ c = 'e' := by
  intro c hc
  rw [Numeral.tail] at hc
  cases hexponent : n.exponent with
  | none => simp [hexponent] at hc
  | some e =>
    rw [hexponent] at hc
    exact .inr (Option.some.inj hc).symm

/-- A point or an exponent stands behind the digits that a numeral begins with. -/
theorem Numeral.head?_rest (n : Numeral) :
    ∀ c ∈ ((if n.fraction = [] then [] else '.' :: n.fraction) ++ n.tail).head?,
      c = '.' ∨ c = 'e' := by
  intro c hc
  split_ifs at hc with hnone
  · exact n.head?_tail c hc
  · exact .inl (Option.some.inj hc).symm

/-- What the text of a number looks like: it begins with a digit, it holds no other letter than
that of an exponent, and no mark of a date or a time of day stands behind its first digits. -/
structure IsNumeric (cs : List Char) : Prop where
  head : ∃ c r, cs = c :: r ∧ c.isDigit = true
  chars : ∀ c ∈ cs, c.isDigit = true ∨ c = '.' ∨ c = 'e' ∨ c = '-'
  mark : (cs.dropWhile Char.isDigit).head? ≠ some '-' ∧
    (cs.dropWhile Char.isDigit).head? ≠ some ':'

theorem isNumeric_toDigits (n : ℕ) : IsNumeric (Nat.toDigits 10 n) := by
  have hall : ∀ c ∈ Nat.toDigits 10 n, c.isDigit = true := fun _ => isDigit_of_mem_toDigits
  refine ⟨?_, fun c hc => .inl (hall c hc), ?_⟩
  · obtain ⟨c, r, hcons⟩ := List.exists_cons_of_ne_nil (Nat.toDigits_ne_nil (b := 10) (n := n))
    exact ⟨c, r, hcons, hall c (hcons ▸ List.mem_cons_self)⟩
  · rw [List.dropWhile_eq_nil_iff.mpr hall]
    exact ⟨nofun, nofun⟩

theorem Numeral.isNumeric {n : Numeral} (h : n.Proper) : IsNumeric n.chars := by
  obtain ⟨hwhole, hfraction⟩ := h.isDigit
  refine ⟨?_, ?_, ?_⟩
  · obtain ⟨c, r, hcons, -⟩ := h.whole
    rw [Numeral.chars, hcons]
    exact ⟨c, _, rfl, hwhole c (hcons ▸ List.mem_cons_self)⟩
  · intro c hc
    simp only [Numeral.chars, List.mem_append] at hc
    rcases hc with hc | hc | hc
    · exact .inl (hwhole c hc)
    · split_ifs at hc
      · cases hc
      · rcases List.mem_cons.mp hc with rfl | hc
        · exact .inr (.inl rfl)
        · exact .inl (hfraction c hc)
    · rw [Numeral.tail] at hc
      cases hexponent : n.exponent with
      | none => simp [hexponent] at hc
      | some e =>
        rw [hexponent, Option.elim_some, List.mem_cons] at hc
        rcases hc with rfl | hc
        · exact .inr (.inr (.inl rfl))
        · exact (isDigit_or_of_mem_toString hc).imp_right fun hsign => .inr (.inr hsign)
  · have hmark := n.head?_rest
    rw [Numeral.chars, (takeWhile_append_of_all hwhole ?_).2]
    · constructor
      · exact fun h => by cases hmark _ h <;> contradiction
      · exact fun h => by cases hmark _ h <;> contradiction
    · intro c hc
      rcases hmark c hc with rfl | rfl <;> rfl

end Look

end JustIntonation.Toml
