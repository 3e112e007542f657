/-
JustIntonation/Proofs/Tuning/MappingFile.lean

What a keyboard mapping file says to a program that reads it.

A mapping file is read by lines.  A line that begins with an exclamation mark
is a comment; of the others the first seven are numbers about the mapping as
a whole, and each one behind them is the scale degree of the next key.

Main result: the mapping of a keyboard maps as many keys as it has
frequencies, from key 0 on, to the degrees 0, 1, 2 and so on
(`read_mappingText`).
-/
import JustIntonation.Proofs.Binary64.Format
import JustIntonation.Proofs.Text.Numbers
import JustIntonation.Tuning.Keyboard

namespace JustIntonation

/-! ### Number texts stand on one line -/

/-- A character that neither ends a line nor makes it a comment. -/
def Inline (c : Char) : Prop := c ≠ '\n' ∧ c ≠ '!'

theorem inline_of_isNumberChar {c : Char} (h : IsNumberChar c) : Inline c := by
  constructor
  · rintro rfl
    exact not_isNumberChar rfl (by decide) h
  · rintro rfl
    exact not_isNumberChar rfl (by decide) h

theorem inline_int (n : Int) : ∀ c ∈ (toString n).toList, Inline c :=
  fun c hc => inline_of_isNumberChar (isNumberChar_int n c hc)

theorem inline_nat (n : Nat) : ∀ c ∈ (toString n).toList, Inline c := inline_int (Int.ofNat n)

theorem inline_format (layout : Binary64.Layout) (x : Binary64) :
    ∀ c ∈ (x.format layout).toList, Inline c :=
  fun c hc => inline_of_isNumberChar (Binary64.isNumberChar_format layout x c hc)

/-! ### Mapping files -/

namespace Tuning

open Text

/-- The lines of a text that are no comments.  Every line ends with a line feed. -/
def contentLines (text : String) : List (List Char) :=
  (text.toList.splitOn '\n').dropLast.filter fun line => line.head? ≠ some '!'

/-- What a mapping file says. -/
structure Mapping where
  /-- How many keys there are before the mapping repeats. -/
  size : Option Int
  firstKey : Option Int
  lastKey : Option Int
  /-- The key of the first degree. -/
  middleKey : Option Int
  /-- The key whose frequency is given. -/
  referenceKey : Option Int
  referenceFrequency : Option String
  /-- The degree at which the scale repeats. -/
  octaveDegree : Option Int
  /-- The degree of each key. -/
  degrees : List (Option Nat)

/-- Read a mapping file. -/
def Mapping.read (text : String) : Mapping :=
  let lines := contentLines text
  { size := lines[0]? >>= integer?
    firstKey := lines[1]? >>= integer?
    lastKey := lines[2]? >>= integer?
    middleKey := lines[3]? >>= integer?
    referenceKey := lines[4]? >>= integer?
    referenceFrequency := lines[5]?.map String.ofList
    octaveDegree := lines[6]? >>= integer?
    degrees := (lines.drop 7).map natural? }

namespace Keyboard

/-- What the mapping says about itself as a whole. -/
def mappingFields (k : Keyboard) : List String :=
  [toString k.size, "0", toString ((k.size : Int) - 1), "0", "0",
    k.reference.format Binary64.general, "0"]

/-- The degrees of the keys. -/
def mappingDegrees (k : Keyboard) : List String := (List.range k.size).map toString

theorem mappingText_eq_join (k : Keyboard) : k.mappingText
    = String.join ((k.mappingFields ++ "! Mapping" :: k.mappingDegrees).map (· ++ "\n")) := by
  have hzero : "\n0\n" = "\n" ++ ("0" ++ "\n") := rfl
  have hzeros : "\n0\n0\n" = "\n" ++ ("0" ++ ("\n" ++ ("0" ++ "\n"))) := rfl
  have hcomment : "\n0\n! Mapping\n" = "\n" ++ ("0" ++ ("\n" ++ ("! Mapping" ++ "\n"))) := rfl
  rw [mappingText, mappingFields, mappingDegrees, List.map_append, String.join_append]
  simp only [List.map_cons, List.map_nil, List.map_map, String.join_cons, String.join_nil,
    String.append_assoc, String.empty_append, hzero, hzeros, hcomment]
  rfl

theorem inline_mappingFields (k : Keyboard) :
    ∀ line ∈ k.mappingFields, ∀ c ∈ line.toList, Inline c := by
  intro line hline
  simp only [mappingFields, List.mem_cons, List.not_mem_nil, or_false] at hline
  rcases hline with rfl | rfl | rfl | rfl | rfl | rfl | rfl
  · exact inline_nat _
  · exact inline_nat 0
  · exact inline_int _
  · exact inline_nat 0
  · exact inline_nat 0
  · exact inline_format _ _
  · exact inline_nat 0

theorem inline_mappingDegrees (k : Keyboard) :
    ∀ line ∈ k.mappingDegrees, ∀ c ∈ line.toList, Inline c := by
  intro line hline
  obtain ⟨degree, -, rfl⟩ := List.mem_map.mp hline
  exact inline_nat degree

/-- Number texts are kept where comments are dropped. -/
theorem filter_of_inline {lines : List String} (h : ∀ line ∈ lines, ∀ c ∈ line.toList, Inline c) :
    (lines.map String.toList).filter (fun line => line.head? ≠ some '!')
      = lines.map String.toList := by
  rw [List.filter_eq_self]
  intro line hline
  obtain ⟨text, htext, rfl⟩ := List.mem_map.mp hline
  apply decide_eq_true
  intro hhead
  exact (h text htext '!' (List.mem_of_head? hhead)).2 rfl

/-- The lines of the mapping text, each of which ends with a line feed. -/
theorem splitOn_mappingText (k : Keyboard) : k.mappingText.toList.splitOn '\n'
    = (k.mappingFields ++ "! Mapping" :: k.mappingDegrees).map String.toList ++ [[]] := by
  rw [mappingText_eq_join, splitOn_join]
  intro line hline hend
  rcases List.mem_append.mp hline with hfield | hline
  · exact (inline_mappingFields k line hfield _ hend).1 rfl
  · rcases List.mem_cons.mp hline with rfl | hdegree
    · cases (by decide : '\n' ∉ "! Mapping".toList) hend
    · exact (inline_mappingDegrees k line hdegree _ hend).1 rfl

theorem contentLines_mappingText (k : Keyboard) : contentLines k.mappingText
    = (k.mappingFields ++ k.mappingDegrees).map String.toList := by
  -- The comment between the fields and the degrees is the only line that is dropped.
  rw [contentLines, splitOn_mappingText, List.dropLast_concat, List.map_append, List.map_append,
    List.map_cons, List.filter_append, filter_of_inline (inline_mappingFields k),
    List.filter_cons_of_neg, filter_of_inline (inline_mappingDegrees k)]
  simp

/-- The mapping of a keyboard, read: its keys are those from 0 on, as many as it has, and they
have the degrees of the scale in their order; the key and the degree of the reference are 0. -/
theorem read_mappingText (k : Keyboard) : Mapping.read k.mappingText =
    { size := some (k.size : Int)
      firstKey := some 0
      lastKey := some ((k.size : Int) - 1)
      middleKey := some 0
      referenceKey := some 0
      referenceFrequency := some (k.reference.format Binary64.general)
      octaveDegree := some 0
      degrees := (List.range k.size).map some } := by
  have hdegrees : (k.mappingDegrees.map String.toList).map natural?
      = (List.range k.size).map some := by
    rw [mappingDegrees, List.map_map, List.map_map]
    apply List.map_congr_left
    intro degree _
    show natural? (toString degree).toList = some degree
    rw [Text.toList_toString, natural?_toDigits]
  have hsize : integer? (toString k.size).toList = some (k.size : Int) :=
    integer?_toString (k.size : Int)
  have hzero : integer? "0".toList = some 0 := integer?_toString 0
  have hlast := integer?_toString ((k.size : Int) - 1)
  rw [Mapping.read, contentLines_mappingText]
  show Mapping.mk (integer? (toString k.size).toList) (integer? "0".toList)
    (integer? (toString ((k.size : Int) - 1)).toList) (integer? "0".toList)
    (integer? "0".toList) (some (String.ofList (k.reference.format Binary64.general).toList))
    (integer? "0".toList) ((k.mappingDegrees.map String.toList).map natural?) = _
  rw [hsize, hzero, hlast, hdegrees, String.ofList_toList]

end Keyboard

end Tuning

end JustIntonation
