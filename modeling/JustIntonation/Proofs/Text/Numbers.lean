/-
JustIntonation/Proofs/Text/Numbers.lean

Lines, and numbers in them.

What the program writes for other programs it does not read itself.  Such
files are taken apart here at their line feeds, and the numbers in them are
read as anyone reads them: digits, a minus sign in front of them, and for a
fraction a stroke between two numbers.  What was written is read again
(`integer?_toString`, `rational?_rationalText`).
-/
import JustIntonation.Proofs.Text.Digits
import JustIntonation.Ratio
import Mathlib.Data.Rat.Lemmas
import Mathlib.Tactic.SplitIfs

namespace JustIntonation.Text

/-! ### Lines -/

/-- Lines that are written one behind the other are found again. -/
theorem splitOn_join {lines : List String} (h : ∀ line ∈ lines, '\n' ∉ line.toList) :
    (String.join (lines.map (· ++ "\n"))).toList.splitOn '\n'
      = lines.map String.toList ++ [[]] := by
  rw [String.toList_join]
  induction lines with
  | nil => rfl
  | cons line lines ih =>
    obtain ⟨hline, hlines⟩ := List.forall_mem_cons.mp h
    have hfirst : (line ++ "\n").toList = line.toList ++ ['\n'] := String.toList_append
    rw [List.map_cons, List.flatMap_cons, hfirst, List.append_assoc, List.singleton_append,
      List.splitOn_append_cons_self_of_not_mem hline, ih hlines, List.map_cons, List.cons_append]

/-- Lines with line feeds between them are found again. -/
theorem splitOn_intercalate {lines : List String} (hne : lines ≠ [])
    (h : ∀ line ∈ lines, '\n' ∉ line.toList) :
    ("\n".intercalate lines).toList.splitOn '\n' = lines.map String.toList := by
  rw [String.toList_intercalate]
  refine List.splitOn_intercalate '\n' ?_ (mt List.map_eq_nil_iff.mp hne)
  rintro _ hline
  obtain ⟨line, hmem, rfl⟩ := List.mem_map.mp hline
  exact h line hmem

/-- Blocks of joined texts that are joined again are all of their texts joined. -/
theorem intercalate_flatten {sep : String} {blocks : List (List String)}
    (h : ∀ block ∈ blocks, block ≠ []) :
    sep.intercalate (blocks.map sep.intercalate) = sep.intercalate blocks.flatten := by
  induction blocks with
  | nil => rfl
  | cons block blocks ih =>
    obtain ⟨hblock, hblocks⟩ := List.forall_mem_cons.mp h
    cases blocks with
    | nil =>
      rw [List.map_singleton, String.intercalate_singleton, List.flatten_singleton]
    | cons next blocks =>
      have hne : (next :: blocks).flatten ≠ [] := by
        rw [List.flatten_cons]
        exact List.append_ne_nil_of_left_ne_nil (hblocks next List.mem_cons_self) _
      rw [List.map_cons, List.map_cons, String.intercalate_cons_cons, ← List.map_cons,
        ih hblocks, List.flatten_cons (L := next :: blocks),
        String.intercalate_append_of_ne_nil hblock hne]

/-- What is true of the characters of some texts and of what stands between them is true of those
of the joined text. -/
theorem forall_mem_intercalate {p : Char → Prop} {sep : String} (hsep : ∀ c ∈ sep.toList, p c)
    {ss : List String} (h : ∀ s ∈ ss, ∀ c ∈ s.toList, p c) :
    ∀ c ∈ (sep.intercalate ss).toList, p c := by
  induction ss with
  | nil => exact nofun
  | cons s ss ih =>
    obtain ⟨hs, hss⟩ := List.forall_mem_cons.mp h
    cases ss with
    | nil =>
      rw [String.intercalate_singleton]
      exact hs
    | cons t ss =>
      rw [String.intercalate_cons_cons, String.toList_append, String.toList_append]
      exact List.forall_mem_append.mpr ⟨List.forall_mem_append.mpr ⟨hs, hsep⟩, ih hss⟩

/-! ### Whole numbers -/

/-- The number that some digits denote. -/
def natural? (line : List Char) : Option Nat :=
  if line ≠ [] ∧ line.all Char.isDigit then some (Nat.ofDigitChars 10 line 0) else none

/-- The number that some digits denote, behind a minus sign or not. -/
def integer? : List Char → Option Int
  | '-' :: line => (natural? line).map fun n => -(n : Int)
  | line => (natural? line).map Int.ofNat

theorem natural?_toDigits (n : Nat) : natural? (Nat.toDigits 10 n) = some n := by
  have hne : Nat.toDigits 10 n ≠ [] := Nat.toDigits_ne_nil
  have hdigits : (Nat.toDigits 10 n).all Char.isDigit = true :=
    List.all_eq_true.mpr fun _ => isDigit_of_mem_toDigits
  rw [natural?, if_pos ⟨hne, hdigits⟩, Nat.ofDigitChars_ten_toDigits]

theorem natural?_toString (n : Nat) : natural? (toString n).toList = some n := by
  rw [toList_toString, natural?_toDigits]

theorem integer?_toString (n : Int) : integer? (toString n).toList = some n := by
  cases n with
  | ofNat n =>
    rw [toList_toString_ofNat, integer?, natural?_toDigits]
    · rfl
    · -- The first digit is not taken for a minus sign.
      intro line hline
      have hminus : '-'.isDigit = true :=
        isDigit_of_mem_toDigits (hline ▸ List.mem_cons_self)
      cases hminus
  | negSucc n =>
    rw [toList_toString_negSucc, integer?, natural?_toDigits]
    rfl

/-! ### Fractions -/

/-- The rational that a whole number denotes, or a fraction of two. -/
def rational? (text : List Char) : Option ℚ :=
  match text.splitOn '/' with
  | [n] => do
    let n ← integer? n
    return n
  | [n, d] => do
    let n ← integer? n
    let d ← natural? d
    if d = 0 then none else some (n / d)
  | _ => none

/-- The text of an integer has nothing in it but digits and a minus sign. -/
theorem not_mem_toString {c : Char} (hdigit : c.isDigit = false) (hminus : c ≠ '-') (n : Int) :
    c ∉ (toString n).toList := by
  intro hc
  rcases isDigit_or_of_mem_toString hc with hc | hc
  · rw [hdigit] at hc
    cases hc
  · exact hminus hc

theorem not_mem_rationalText {c : Char} (hdigit : c.isDigit = false) (hminus : c ≠ '-')
    (hstroke : c ≠ '/') (q : ℚ) : c ∉ (rationalText q).toList := by
  have hnumber := not_mem_toString hdigit hminus
  rw [rationalText]
  split_ifs
  · exact hnumber q.num
  · rw [String.toList_append, String.toList_append, List.mem_append, List.mem_append]
    rintro ((h | h) | h)
    · exact hnumber q.num h
    · exact hstroke (List.mem_singleton.mp h)
    · exact hnumber q.den h

theorem rational?_rationalText (q : ℚ) : rational? (rationalText q).toList = some q := by
  have hstroke : ∀ n : Int, '/' ∉ (toString n).toList := not_mem_toString rfl (by decide)
  rw [rationalText, rational?]
  split_ifs with hden
  · rw [List.splitOn_eq_singleton (hstroke q.num)]
    dsimp only
    rw [integer?_toString]
    show some (q.num : ℚ) = some q
    rw [Rat.coe_int_num_of_den_eq_one hden]
  · have htext : (toString q.num ++ "/" ++ toString q.den).toList
        = (toString q.num).toList ++ '/' :: (toString q.den).toList := by
      rw [String.toList_append, String.toList_append, List.append_assoc]
      rfl
    have hlower : '/' ∉ (toString q.den).toList := hstroke q.den
    rw [htext, List.splitOn_append_cons_self_of_not_mem (hstroke q.num),
      List.splitOn_eq_singleton hlower]
    dsimp only
    rw [integer?_toString, natural?_toString]
    show (if q.den = 0 then none else some ((q.num : ℚ) / q.den)) = some q
    rw [if_neg q.den_nz, Rat.num_div_den]

end JustIntonation.Text
