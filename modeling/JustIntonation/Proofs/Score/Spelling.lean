/-
JustIntonation/Proofs/Score/Spelling.lean

Written pitches, read back.

A name says which step of the octave a pitch is, and its marks say which
octave.  Both are counted from middle C, the step as the remainder and the
octave as the quotient of the number of steps; the quotient is rounded down,
so there is no gap and no overlap where the marks change from one sign to the
other (`octaveMarks_add_one`).

Main result: a written pitch gives back its number of steps, whatever number
that is, and so notes are spelled alike only if it is the same for both; an
octave up is one mark more or one fewer (`spelling_readBack`).
-/
import JustIntonation.Score.Pitch
import Mathlib.Data.Int.Order.Basic
import Mathlib.Data.List.Nodup
import Mathlib.Data.List.TakeWhile
import Mathlib.Tactic.SplitIfs

namespace JustIntonation.Score

/-! ### Marks -/

/-- The marks of a number of octaves above the unmarked names. -/
def octaveMarks (octaves : ℤ) : List Char :=
  List.replicate octaves.natAbs (if 0 < octaves then '\'' else ',')

/-- The octave of some marks.  Octave 0 begins at middle C; a name without marks belongs to the
one below. -/
def octaveOf? (marks : List Char) : Option ℤ :=
  if marks.all (· = '\'') then some (marks.length - 1)
  else if marks.all (· = ',') then some (-marks.length - 1)
  else none

theorem octaveMarks_of_nonneg {octaves : ℤ} (h : 0 ≤ octaves) :
    octaveMarks octaves = List.replicate octaves.natAbs '\'' := by
  rw [octaveMarks]
  split_ifs with hpos
  · rfl
  · rw [show octaves = 0 by omega]
    rfl

theorem octaveMarks_of_nonpos {octaves : ℤ} (h : octaves ≤ 0) :
    octaveMarks octaves = List.replicate octaves.natAbs ',' := by
  rw [octaveMarks, if_neg (Int.not_lt.mpr h)]

theorem octaveOf?_octaveMarks (octaves : ℤ) :
    octaveOf? (octaveMarks octaves) = some (octaves - 1) := by
  obtain hup | hdown := le_or_gt 0 octaves
  · have hlength : (octaves.natAbs : ℤ) = octaves := Int.natAbs_of_nonneg hup
    rw [octaveMarks_of_nonneg hup, octaveOf?, if_pos (by simp), List.length_replicate, hlength]
  · have hlength : (octaves.natAbs : ℤ) = -octaves := by omega
    have hmarked : octaves.natAbs ≠ 0 := by omega
    rw [octaveMarks_of_nonpos (Int.le_of_lt hdown), octaveOf?, if_neg (by simp [hmarked]),
      if_pos (by simp), List.length_replicate, hlength, Int.neg_neg]

/-- An octave further up is one upward mark more or one downward mark fewer. -/
theorem octaveMarks_add_one (octaves : ℤ) :
    0 ≤ octaves ∧ octaveMarks (octaves + 1) = octaveMarks octaves ++ ['\''] ∨
    octaves < 0 ∧ octaveMarks octaves = octaveMarks (octaves + 1) ++ [','] := by
  obtain hup | hdown := le_or_gt 0 octaves
  · have hnext : (octaves + 1).natAbs = octaves.natAbs + 1 := by omega
    refine .inl ⟨hup, ?_⟩
    rw [octaveMarks_of_nonneg hup, octaveMarks_of_nonneg (by omega), hnext, List.replicate_succ']
  · have hnext : octaves.natAbs = (octaves + 1).natAbs + 1 := by omega
    refine .inr ⟨hdown, ?_⟩
    rw [octaveMarks_of_nonpos (by omega), octaveMarks_of_nonpos (by omega), hnext,
      List.replicate_succ']

theorem mem_octaveMarks {octaves : ℤ} {c : Char} (h : c ∈ octaveMarks octaves) :
    c = '\'' ∧ 0 < octaves ∨ c = ',' ∧ octaves < 0 := by
  obtain ⟨hcount, hc⟩ := List.mem_replicate.mp h
  split_ifs at hc with hpos
  · exact .inl ⟨hc, hpos⟩
  · exact .inr ⟨hc, by omega⟩

/-! ### Names -/

namespace Spelling

/-- The number of steps that a written pitch stands for: the place of its letters among the
names, and its octaves. -/
def stepsOf? (s : Spelling) (text : String) : Option ℤ := do
  let index ← s.names.idxOf? (String.ofList (text.toList.takeWhile Char.isAlpha))
  let octave ← octaveOf? (text.toList.dropWhile Char.isAlpha)
  return index + s.size * octave

theorem size_pos (s : Spelling) : 0 < (s.size : ℤ) := by cases s <;> decide

theorem nodup_names (s : Spelling) : s.names.Nodup := by cases s <;> decide

theorem isAlpha_of_mem_names {s : Spelling} {name : String} (h : name ∈ s.names) :
    ∀ c ∈ name.toList, c.isAlpha = true := by
  have hletters : (s.names.all fun name => name.toList.all Char.isAlpha) = true := by
    cases s <;> decide
  exact List.all_eq_true.mp (List.all_eq_true.mp hletters name h)

/-- A written pitch is a name of the table and the marks of its octave. -/
theorem exists_nameOf (s : Spelling) (steps : ℤ) : ∃ name, ∃ index : ℕ,
    s.names[index]? = some name ∧ (index : ℤ) = steps % s.size ∧
    (s.nameOf steps).toList = name.toList ++ octaveMarks (steps / s.size + 1) := by
  have hlow := Int.emod_nonneg steps s.size_pos.ne'
  have hhigh := Int.emod_lt_of_pos steps s.size_pos
  have hindex : (steps % s.size).toNat < s.names.length := by
    rw [size] at hlow hhigh ⊢
    omega
  refine ⟨_, _, List.getElem?_eq_getElem hindex, Int.toNat_of_nonneg hlow, ?_⟩
  rw [nameOf, String.toList_append, String.toList_ofList, List.getD_eq_getElem?_getD,
    List.getElem?_eq_getElem hindex, Option.getD_some]
  rfl

/-- The letters end where the marks begin, which are no letters. -/
theorem span_isAlpha_append {letters : List Char} (h : ∀ c ∈ letters, c.isAlpha = true)
    (octaves : ℤ) :
    (letters ++ octaveMarks octaves).takeWhile Char.isAlpha = letters ∧
    (letters ++ octaveMarks octaves).dropWhile Char.isAlpha = octaveMarks octaves := by
  rw [List.takeWhile_append_of_pos h, List.dropWhile_append_of_pos h]
  cases hmarks : octaveMarks octaves with
  | nil => exact ⟨List.append_nil _, rfl⟩
  | cons c marks =>
    have hc : c.isAlpha = false := by
      have hmem : c ∈ octaveMarks octaves := hmarks ▸ List.mem_cons_self
      obtain ⟨rfl, -⟩ | ⟨rfl, -⟩ := mem_octaveMarks hmem <;> decide
    simp [hc]

/-- Whatever the number of steps, its name gives it back. -/
theorem stepsOf?_nameOf (s : Spelling) (steps : ℤ) : s.stepsOf? (s.nameOf steps) = some steps := by
  obtain ⟨name, index, hname, hindex, htext⟩ := s.exists_nameOf steps
  have hletters := isAlpha_of_mem_names (List.mem_of_getElem? hname)
  obtain ⟨htake, hdrop⟩ := span_isAlpha_append hletters (steps / s.size + 1)
  have hplace : s.names.idxOf? name = some index := by
    obtain ⟨hlt, rfl⟩ := List.getElem?_eq_some_iff.mp hname
    refine List.idxOf?_eq_some_iff.mpr ⟨hlt, rfl, ?_⟩
    intro j hj heq
    exact Nat.ne_of_lt hj ((List.Nodup.getElem_inj_iff s.nodup_names).mp heq)
  have hvalue : (index : ℤ) + s.size * (steps / s.size + 1 - 1) = steps := by
    rw [hindex, Int.add_sub_cancel, Int.emod_add_mul_ediv]
  rw [stepsOf?, htext, htake, hdrop, String.ofList_toList, hplace, octaveOf?_octaveMarks]
  exact congrArg some hvalue

theorem nameOf_inj {s : Spelling} {steps steps' : ℤ} :
    s.nameOf steps = s.nameOf steps' ↔ steps = steps' := by
  constructor
  · intro h
    have hread := s.stepsOf?_nameOf steps
    rw [h, stepsOf?_nameOf] at hread
    exact (Option.some.inj hread).symm
  · exact congrArg s.nameOf

/-- What is no letter in a name is a mark, and says on which side the octave lies. -/
theorem mem_nameOf {s : Spelling} {steps : ℤ} {c : Char} (h : c ∈ (s.nameOf steps).toList)
    (hc : c.isAlpha = false) :
    c = '\'' ∧ 0 < steps / s.size + 1 ∨ c = ',' ∧ steps / s.size + 1 < 0 := by
  obtain ⟨name, index, hname, -, htext⟩ := s.exists_nameOf steps
  rw [htext, List.mem_append] at h
  obtain h | h := h
  · rw [isAlpha_of_mem_names (List.mem_of_getElem? hname) c h] at hc
    cases hc
  · exact mem_octaveMarks h

/-- Marks of one kind only. -/
theorem not_mixed (s : Spelling) (steps : ℤ) :
    ¬ ('\'' ∈ (s.nameOf steps).toList ∧ ',' ∈ (s.nameOf steps).toList) := by
  rintro ⟨hup, hdown⟩
  obtain ⟨-, hpos⟩ | ⟨h, -⟩ := mem_nameOf hup (by decide)
  · obtain ⟨h, -⟩ | ⟨-, hneg⟩ := mem_nameOf hdown (by decide)
    · exact absurd h (by decide)
    · omega
  · exact absurd h (by decide)

/-- An octave up: the same letters, with one upward mark more or one downward mark fewer. -/
theorem nameOf_add_size (s : Spelling) (steps : ℤ) :
    ',' ∉ (s.nameOf steps).toList ∧ s.nameOf (steps + s.size) = s.nameOf steps ++ "'" ∨
    s.nameOf steps = s.nameOf (steps + s.size) ++ "," := by
  have hoctaves : (steps + s.size) / s.size = steps / s.size + 1 := by
    rw [Int.add_ediv_of_dvd_right (Int.dvd_refl _), Int.ediv_self s.size_pos.ne']
  obtain ⟨name, index, hname, hindex, htext⟩ := s.exists_nameOf steps
  obtain ⟨name', index', hname', hindex', htext'⟩ := s.exists_nameOf (steps + s.size)
  -- The remainder stays, and with it the letters.
  rw [Int.add_emod_right, ← hindex, Int.natCast_inj] at hindex'
  rw [hindex', hname] at hname'
  obtain rfl := Option.some.inj hname'
  rw [hoctaves] at htext'
  obtain ⟨hup, hmarks⟩ | ⟨-, hmarks⟩ := octaveMarks_add_one (steps / s.size + 1)
  · refine .inl ⟨?_, ?_⟩
    · intro hmem
      obtain ⟨h, -⟩ | ⟨-, hdown⟩ := mem_nameOf hmem (by decide)
      · exact absurd h (by decide)
      · omega
    · rw [← String.toList_inj, htext', hmarks, String.toList_append, htext, List.append_assoc]
      rfl
  · refine .inr ?_
    rw [← String.toList_inj, htext, hmarks, String.toList_append, htext', List.append_assoc]
    rfl

end Spelling

/-! ### Notes -/

theorem spell_of_sounding {n : Note} (h : n.isRest = false) (f0 : Binary64) (s : Spelling) :
    spell f0 s n = s.nameOf (s.stepsTo (n.frequency.value.toBinary64 * f0)) := by
  rw [spell, h]
  rfl

/-- A written pitch gives back its number of steps, so notes are spelled alike exactly if they
lie equally many steps above middle C.  An octave up, it has one upward mark more or one
downward mark fewer, and it never has marks of both kinds. -/
theorem spelling_readBack (s : Spelling) {m n : Note} (hm : m.isRest = false)
    (hn : n.isRest = false) (f0 g0 : Binary64) (steps : ℤ) :
    s.stepsOf? (s.nameOf steps) = some steps ∧
    s.stepsOf? (spell f0 s m) = some (s.stepsTo (m.frequency.value.toBinary64 * f0)) ∧
    (spell f0 s m = spell g0 s n ↔
      s.stepsTo (m.frequency.value.toBinary64 * f0)
        = s.stepsTo (n.frequency.value.toBinary64 * g0)) ∧
    (',' ∉ (s.nameOf steps).toList ∧ s.nameOf (steps + s.size) = s.nameOf steps ++ "'" ∨
      s.nameOf steps = s.nameOf (steps + s.size) ++ ",") ∧
    ¬ ('\'' ∈ (s.nameOf steps).toList ∧ ',' ∈ (s.nameOf steps).toList) := by
  rw [spell_of_sounding hm, spell_of_sounding hn]
  exact ⟨s.stepsOf?_nameOf steps, s.stepsOf?_nameOf _, Spelling.nameOf_inj,
    s.nameOf_add_size steps, s.not_mixed steps⟩

/-- The seventh harmonic of 440 hertz. -/
def seventhHarmonic : Note := ⟨.ratio (.ofInt 7), .one, .one⟩

/-- The same pitch, counted from 220 hertz. -/
def seventhOctaveUp : Note := ⟨.product ⟨[.ofInt 2, .ofInt 7]⟩, .one, .one⟩

/-- One pitch in two forms, and the step that lies just below the octave without marks. -/
theorem spelling_readBack_sevenths :
    seventhHarmonic.isRest = false ∧ seventhOctaveUp.isRest = false ∧
    Spelling.nineteen.stepsOf? (Spelling.nineteen.nameOf (-20)) = some (-20) ∧
    spell 440 .nineteen seventhHarmonic = spell 220 .nineteen seventhOctaveUp ∧
    Spelling.nineteen.nameOf (-20) = Spelling.nineteen.nameOf (-1) ++ "," := by
  have hseventh : seventhHarmonic.isRest = false := by decide +kernel
  have hoctaveUp : seventhOctaveUp.isRest = false := by decide +kernel
  have hpitch : seventhHarmonic.frequency.value.toBinary64 * 440
      = seventhOctaveUp.frequency.value.toBinary64 * 220 := by decide +kernel
  obtain ⟨hread, -, halike, hup | hdown, -⟩ :=
    spelling_readBack .nineteen hseventh hoctaveUp 440 220 (-20)
  · exact absurd hup.1 (by decide)
  · exact ⟨hseventh, hoctaveUp, hread, halike.mpr (congrArg _ hpitch), hdown⟩

end JustIntonation.Score
