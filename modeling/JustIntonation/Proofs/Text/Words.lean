/-
JustIntonation/Proofs/Text/Words.lean

The words of a text, and where they end.

A reader takes a line apart at its blanks (`words`), and a reader's eye sees at
which places of the line the words end (`wordEnds`).  A text that begins with
blanks and a word has that word, and then the words of the rest
(`words_append`, `wordEnds_append`).
-/
import JustIntonation.Text.Whitespace
import Mathlib.Data.List.Basic

namespace JustIntonation.Text

/-- The words of a text: what stands between its blanks. -/
def words (cs : List Char) : List (List Char) := (cs.splitOnP isBlank).filter (· ≠ [])

/-- The places behind the words of a text, of which the first character is at place `n`. -/
def wordEnds : ℕ → List Char → List ℕ
  | _, [] => []
  | n, c :: cs =>
    if isBlank c = false ∧ cs.head?.all isBlank = true then (n + 1) :: wordEnds (n + 1) cs
    else wordEnds (n + 1) cs

/-- A text of at least one character and no blanks. -/
structure IsWord (w : List Char) : Prop where
  ne_nil : w ≠ []
  chars : ∀ c ∈ w, isBlank c = false

theorem isDigit_of_isBlank {c : Char} (h : isBlank c = true) : c.isDigit = false := by
  rw [Bool.eq_false_iff]
  intro hdigit
  have hrange := Char.isDigit_iff_toNat.mp hdigit
  simp only [isBlank, whitespaceRanges, List.any_cons, List.any_nil, Bool.or_eq_true,
    Bool.and_eq_true, decide_eq_true_eq, Bool.or_false] at h
  have hzero : '0'.toNat = 48 := rfl
  have hnine : '9'.toNat = 57 := rfl
  omega

section Words

variable {blanks w rest : List Char} {c : Char}

theorem words_cons_of_isBlank (h : isBlank c = true) (cs : List Char) :
    words (c :: cs) = words cs := by
  have hsplit := List.splitOnP_append_cons [] cs h
  rw [List.nil_append, List.splitOnP_nil, List.singleton_append] at hsplit
  rw [words, hsplit, List.filter_cons_of_neg (by simp), words]

theorem words_blanks_append (h : ∀ c ∈ blanks, isBlank c = true) (cs : List Char) :
    words (blanks ++ cs) = words cs := by
  induction blanks with
  | nil => rfl
  | cons c blanks ih =>
    obtain ⟨hc, hblanks⟩ := List.forall_mem_cons.mp h
    rw [List.cons_append, words_cons_of_isBlank hc, ih hblanks]

/-- A word up to a blank or to the end is the first word. -/
theorem words_append (hw : IsWord w) (hrest : ∀ c ∈ rest.head?, isBlank c = true) :
    words (w ++ rest) = w :: words rest := by
  have hsingle : w.splitOnP isBlank = [w] := List.splitOnP_eq_singleton hw.chars
  cases rest with
  | nil => simp [words, hsingle, hw.ne_nil, List.splitOnP_nil]
  | cons c rest =>
    rw [words_cons_of_isBlank (hrest c rfl), words, List.splitOnP_append_cons w rest (hrest c rfl),
      hsingle, List.singleton_append, List.filter_cons_of_pos (by simp [hw.ne_nil]), words]

theorem wordEnds_blanks_append (h : ∀ c ∈ blanks, isBlank c = true) (n : ℕ) (cs : List Char) :
    wordEnds n (blanks ++ cs) = wordEnds (n + blanks.length) cs := by
  induction blanks generalizing n with
  | nil => rfl
  | cons c blanks ih =>
    obtain ⟨hc, hblanks⟩ := List.forall_mem_cons.mp h
    rw [List.cons_append, wordEnds, if_neg (by simp [hc]), ih hblanks, List.length_cons,
      Nat.add_right_comm, Nat.add_assoc]

theorem wordEnds_append (hw : IsWord w) (hrest : ∀ c ∈ rest.head?, isBlank c = true) (n : ℕ) :
    wordEnds n (w ++ rest) = (n + w.length) :: wordEnds (n + w.length) rest := by
  obtain ⟨hne, hchars⟩ := hw
  induction w generalizing n with
  | nil => exact absurd rfl hne
  | cons c w ih =>
    obtain ⟨hc, hw⟩ := List.forall_mem_cons.mp hchars
    rw [List.cons_append, wordEnds]
    cases w with
    | nil =>
      rw [List.nil_append, if_pos ⟨hc, (Option.all_eq_true _ _).mpr hrest⟩]
      rfl
    | cons d w =>
      have hinside : isBlank d = false := hw d List.mem_cons_self
      rw [if_neg (by simp [hinside]), ih (n + 1) (List.cons_ne_nil d w) hw,
        List.length_cons (a := c), Nat.add_right_comm n, Nat.add_assoc n]

end Words

end JustIntonation.Text
