/-
JustIntonation/Proofs/Report/Table.lean

The table of intervals, read by a reader's eye.

A row is cells pushed to the right ends of equally wide fields.  The texts of
numbers have no blanks (`isWord_text`) and are as wide as a field at most, so
they are the words of the row (`words_row`), and where they end depends on the
number of cells alone (`wordEnds_row`).  The header begins with as many blanks
as the other rows have characters in front of their cells, and so its words
end above theirs (`wordEnds_headerLine`, `wordEnds_intervalLine`).

Main result: `intervalTable_aligned`.
-/
import JustIntonation.Proofs.Binary64.Format
import JustIntonation.Proofs.Music.FrequencySet
import JustIntonation.Proofs.Music.Measure
import JustIntonation.Proofs.Text.Numbers
import JustIntonation.Proofs.Text.Words

namespace JustIntonation

open Text

/-! ### Numbers as words -/

/-- The text of a number has no blanks. -/
theorem Number.isWord_text (x : Number) : IsWord x.text.toList := by
  cases x with
  | exact q =>
    constructor
    · intro hnil
      have hread := rational?_rationalText q
      rw [show (rationalText q).toList = [] from hnil] at hread
      cases hread
    · intro c hc
      rw [Bool.eq_false_iff]
      intro hblank
      refine not_mem_rationalText (isDigit_of_isBlank hblank) ?_ ?_ q hc
      · rintro rfl
        cases hblank
      · rintro rfl
        cases hblank
  | approximate x =>
    refine ⟨x.format_ne_empty _, ?_⟩
    intro c hc
    rw [Bool.eq_false_iff]
    intro hblank
    refine not_isNumberChar (isDigit_of_isBlank hblank) ?_ (x.isNumberChar_format _ c hc)
    have hletters : ∀ c ∈ "-.einfNa".toList, isBlank c = false :=
      List.all_iff_forall_prop.mp (by decide)
    intro hc
    rw [hletters c hc] at hblank
    cases hblank

namespace Report

/-! ### Rows -/

/-- A text that is a word and no wider than a field. -/
structure Fits (width : ℕ) (cell : String) : Prop where
  isWord : IsWord cell.toList
  length_le : cell.length ≤ width

/-- The cells of a row behind its first. -/
def further (width : ℕ) (cells : List String) : List Char :=
  cells.flatMap fun cell => List.replicate 2 ' ' ++ (padLeft width cell).toList

section Rows

variable {width : ℕ} {cell : String} {cells : List String}

theorem isBlank_of_mem_replicate (n : ℕ) : ∀ c ∈ List.replicate n ' ', isBlank c = true := by
  intro c hc
  rw [List.eq_of_mem_replicate hc]
  decide

theorem isBlank_head?_replicate_append (n : ℕ) (rest : List Char) :
    ∀ c ∈ (List.replicate (n + 1) ' ' ++ rest).head?, isBlank c = true := by
  rintro _ ⟨⟩
  decide

theorem toList_padLeft (width : ℕ) (s : String) :
    (padLeft width s).toList = List.replicate (width - s.length) ' ' ++ s.toList := by
  rw [padLeft, String.toList_append, toList_spaces]

theorem length_padLeft (h : Fits width cell) : (padLeft width cell).toList.length = width := by
  have hle := h.length_le
  rw [toList_padLeft, List.length_append, List.length_replicate, String.length_toList]
  omega

theorem words_padLeft_append (h : Fits width cell) {rest : List Char}
    (hrest : ∀ c ∈ rest.head?, isBlank c = true) :
    words ((padLeft width cell).toList ++ rest) = cell.toList :: words rest := by
  rw [toList_padLeft, List.append_assoc, words_blanks_append (isBlank_of_mem_replicate _),
    words_append h.isWord hrest]

theorem wordEnds_padLeft_append (h : Fits width cell) {rest : List Char}
    (hrest : ∀ c ∈ rest.head?, isBlank c = true) (n : ℕ) :
    wordEnds n ((padLeft width cell).toList ++ rest)
      = (n + width) :: wordEnds (n + width) rest := by
  have hle := h.length_le
  have hwidth : n + (width - cell.length) + cell.length = n + width := by omega
  rw [toList_padLeft, List.append_assoc, wordEnds_blanks_append (isBlank_of_mem_replicate _),
    wordEnds_append h.isWord hrest, List.length_replicate, String.length_toList, hwidth]

theorem further_cons (width : ℕ) (cell : String) (cells : List String) :
    further width (cell :: cells)
      = List.replicate 2 ' ' ++ ((padLeft width cell).toList ++ further width cells) := by
  rw [further, List.flatMap_cons, ← further, List.append_assoc]

theorem toList_row_cons (width : ℕ) (cell : String) (cells : List String) :
    (row width (cell :: cells)).toList = (padLeft width cell).toList ++ further width cells := by
  induction cells generalizing cell with
  | nil =>
    rw [row, List.map_singleton, String.intercalate_singleton]
    exact (List.append_nil _).symm
  | cons next cells ih =>
    have hrow := ih next
    rw [row, List.map_cons] at hrow
    rw [row, List.map_cons, List.map_cons, String.intercalate_cons_cons, String.toList_append,
      String.toList_append, hrow, List.append_assoc, further_cons]
    rfl

theorem isBlank_head?_further (width : ℕ) (cells : List String) :
    ∀ c ∈ (further width cells).head?, isBlank c = true := by
  cases cells with
  | nil => exact nofun
  | cons cell cells =>
    rw [further_cons]
    exact isBlank_head?_replicate_append 1 _

theorem words_further (h : ∀ cell ∈ cells, Fits width cell) :
    words (further width cells) = cells.map String.toList := by
  induction cells with
  | nil => rfl
  | cons cell cells ih =>
    obtain ⟨hcell, hcells⟩ := List.forall_mem_cons.mp h
    rw [further_cons, words_blanks_append (isBlank_of_mem_replicate 2),
      words_padLeft_append hcell (isBlank_head?_further width cells), ih hcells, List.map_cons]

/-- The cells of a row are its words. -/
theorem words_row (h : ∀ cell ∈ cells, Fits width cell) :
    words (row width cells).toList = cells.map String.toList := by
  cases cells with
  | nil => rfl
  | cons cell cells =>
    obtain ⟨hcell, hcells⟩ := List.forall_mem_cons.mp h
    rw [toList_row_cons, words_padLeft_append hcell (isBlank_head?_further width cells),
      words_further hcells, List.map_cons]

theorem wordEnds_further (h : ∀ cell ∈ cells, Fits width cell) (n : ℕ) :
    wordEnds n (further width cells)
      = List.range' (n + 2 + width) cells.length (width + 2) := by
  induction cells generalizing n with
  | nil => rfl
  | cons cell cells ih =>
    obtain ⟨hcell, hcells⟩ := List.forall_mem_cons.mp h
    have hnext : n + 2 + width + (width + 2) = n + 2 + width + 2 + width := by omega
    rw [further_cons, wordEnds_blanks_append (isBlank_of_mem_replicate 2),
      wordEnds_padLeft_append hcell (isBlank_head?_further width cells), ih hcells,
      List.length_cons, List.range'_succ, hnext]
    rfl

/-- The cells of a row end `width + 2` places apart, whatever they are. -/
theorem wordEnds_row (h : ∀ cell ∈ cells, Fits width cell) (n : ℕ) :
    wordEnds n (row width cells).toList
      = List.range' (n + width) cells.length (width + 2) := by
  cases cells with
  | nil => rfl
  | cons cell cells =>
    obtain ⟨hcell, hcells⟩ := List.forall_mem_cons.mp h
    have hnext : n + width + (width + 2) = n + width + 2 + width := by omega
    rw [toList_row_cons, wordEnds_padLeft_append hcell (isBlank_head?_further width cells),
      wordEnds_further hcells, List.length_cons, List.range'_succ, hnext]

theorem length_further (h : ∀ cell ∈ cells, Fits width cell) :
    (further width cells).length = cells.length * (width + 2) := by
  induction cells with
  | nil => rw [List.length_nil, Nat.zero_mul]; rfl
  | cons cell cells ih =>
    obtain ⟨hcell, hcells⟩ := List.forall_mem_cons.mp h
    rw [further_cons, List.length_append, List.length_append, length_padLeft hcell, ih hcells,
      List.length_cons, List.length_replicate, Nat.add_one_mul]
    omega

/-- Rows of equally many cells are equally long. -/
theorem length_row (h : ∀ cell ∈ cells, Fits width cell) :
    (row width cells).toList.length = cells.length * (width + 2) - 2 := by
  cases cells with
  | nil => rw [List.length_nil, Nat.zero_mul]; rfl
  | cons cell cells =>
    obtain ⟨hcell, hcells⟩ := List.forall_mem_cons.mp h
    rw [toList_row_cons, List.length_append, length_padLeft hcell, length_further hcells,
      List.length_cons, Nat.add_one_mul]
    omega

theorem not_mem_padLeft_of_isBlank (h : Fits width cell) {c : Char} (hc : isBlank c = true)
    (hne : c ≠ ' ') : c ∉ (padLeft width cell).toList := by
  rw [toList_padLeft, List.mem_append]
  rintro (hmem | hmem)
  · exact hne (List.eq_of_mem_replicate hmem)
  · exact absurd (h.isWord.chars c hmem) (by rw [hc]; exact nofun)

theorem newline_not_mem_row (h : ∀ cell ∈ cells, Fits width cell) :
    '\n' ∉ (row width cells).toList := by
  intro hmem
  refine forall_mem_intercalate (p := (· ≠ '\n')) (List.all_iff_forall_prop.mp (by decide))
    ?_ '\n' hmem rfl
  intro field hfield c hc hnewline
  obtain ⟨cell, hcell, rfl⟩ := List.mem_map.mp hfield
  subst hnewline
  exact not_mem_padLeft_of_isBlank (h cell hcell) (by decide) (by decide) hc

end Rows

/-! ### Lines -/

def headerLine (width : ℕ) (frequencies : List Number) : String :=
  spaces (width + border.length) ++ row width (frequencies.map Number.text)

def ruleLine (width : ℕ) (frequencies : List Number) : String :=
  spaces (width + border.length - 2)
    ++ String.ofList (List.replicate ((row width (frequencies.map Number.text)).length + 2) '-')

def intervalLine (width : ℕ) (frequencies : List Number) (f : Number) : String :=
  padLeft width f.text ++ border ++ row width (frequencies.map fun g => (g / f).text)

/-- The headings and the cells of a table fit in its fields. -/
structure FitsTable (width : ℕ) (frequencies : List Number) : Prop where
  headings : ∀ f ∈ frequencies, Fits width f.text
  cells : ∀ f ∈ frequencies, ∀ g ∈ frequencies, Fits width (g / f).text

section Lines

variable {width : ℕ} {frequencies : List Number} {f : Number}

/-- The widest heading or cell gives all fields their width. -/
theorem exists_tableText (h : frequencies ≠ []) : ∃ width, FitsTable width frequencies ∧
    tableText frequencies = "\n".intercalate (["", headerLine width frequencies,
      ruleLine width frequencies] ++ frequencies.map (intervalLine width frequencies)
        ++ ["", ""]) := by
  let texts := frequencies.map Number.text
    ++ ((intervals frequencies).map fun r => r.map Number.text).flatten
  let width := (texts.map String.length).foldl max 0
  have hfits : ∀ x : Number, x.text ∈ texts → Fits width x.text := fun x hx =>
    ⟨x.isWord_text, le_foldl_max (.inr (List.mem_map_of_mem hx))⟩
  refine ⟨width, ⟨?_, ?_⟩, ?_⟩
  · intro f hf
    exact hfits f (List.mem_append_left _ (List.mem_map_of_mem hf))
  · intro f hf g hg
    have hrow : (frequencies.map (· / f)).map Number.text
        ∈ (intervals frequencies).map fun r => r.map Number.text :=
      List.mem_map_of_mem (List.mem_map_of_mem hf)
    have hcell : (g / f).text ∈ (frequencies.map (· / f)).map Number.text :=
      List.mem_map_of_mem (List.mem_map_of_mem hg)
    exact hfits (g / f) (List.mem_append_right _ (List.mem_flatten.mpr ⟨_, hrow, hcell⟩))
  · have hrows : ((frequencies.map Number.text).zip
        ((intervals frequencies).map fun r => r.map Number.text)).map
          (fun line => padLeft width line.1 ++ border ++ row width line.2)
        = frequencies.map (intervalLine width frequencies) := by
      rw [intervals, List.map_map, List.zip_map', List.map_map]
      refine List.map_congr_left fun f _ => ?_
      rw [Function.comp_apply, Function.comp_apply, List.map_map]
      rfl
    have hne : frequencies.isEmpty = false := by rw [List.isEmpty_eq_false_iff]; exact h
    have hlast : ∀ lines : List String, lines ≠ [] →
        "\n".intercalate lines ++ "\n" = "\n".intercalate (lines ++ [""]) := by
      intro lines hlines
      rw [String.intercalate_append_of_ne_nil hlines (List.cons_ne_nil _ _),
        String.intercalate_singleton, String.append_empty]
    rw [tableText, hne]
    show "\n".intercalate (["", headerLine width frequencies, ruleLine width frequencies]
      ++ (List.zip _ _).map (fun line => padLeft width line.1 ++ border ++ row width line.2)
      ++ [""]) ++ "\n" = _
    rw [hrows, hlast _ (by simp), List.append_assoc]
    rfl

theorem forall_mem_headings (h : FitsTable width frequencies) :
    ∀ cell ∈ frequencies.map Number.text, Fits width cell := by
  intro cell hcell
  obtain ⟨f, hf, rfl⟩ := List.mem_map.mp hcell
  exact h.headings f hf

theorem forall_mem_cells (h : FitsTable width frequencies) (hf : f ∈ frequencies) :
    ∀ cell ∈ frequencies.map (fun g => (g / f).text), Fits width cell := by
  intro cell hcell
  obtain ⟨g, hg, rfl⟩ := List.mem_map.mp hcell
  exact h.cells f hf g hg

theorem toList_headerLine (width : ℕ) (frequencies : List Number) :
    (headerLine width frequencies).toList
      = List.replicate (width + 4) ' ' ++ (row width (frequencies.map Number.text)).toList := by
  rw [headerLine, String.toList_append, toList_spaces]
  rfl

theorem toList_ruleLine (width : ℕ) (frequencies : List Number) :
    (ruleLine width frequencies).toList = List.replicate (width + 2) ' '
      ++ List.replicate ((row width (frequencies.map Number.text)).length + 2) '-' := by
  rw [ruleLine, String.toList_append, toList_spaces, String.toList_ofList]
  rfl

theorem toList_intervalLine (width : ℕ) (frequencies : List Number) (f : Number) :
    (intervalLine width frequencies f).toList = (padLeft width f.text).toList
      ++ (List.replicate 2 ' ' ++ (['|'] ++ (List.replicate 1 ' '
        ++ (row width (frequencies.map fun g => (g / f).text)).toList))) := by
  rw [intervalLine, String.toList_append, String.toList_append, List.append_assoc]
  rfl

theorem length_headerLine (h : FitsTable width frequencies) :
    (headerLine width frequencies).toList.length
      = width + 4 + (frequencies.length * (width + 2) - 2) := by
  rw [toList_headerLine, List.length_append, List.length_replicate,
    length_row (forall_mem_headings h), List.length_map]

theorem length_ruleLine (h : FitsTable width frequencies) :
    (ruleLine width frequencies).toList.length
      = width + 4 + (frequencies.length * (width + 2) - 2) := by
  rw [toList_ruleLine, List.length_append, List.length_replicate, List.length_replicate,
    ← String.length_toList, length_row (forall_mem_headings h), List.length_map]
  omega

theorem length_intervalLine (h : FitsTable width frequencies) (hf : f ∈ frequencies) :
    (intervalLine width frequencies f).toList.length
      = width + 4 + (frequencies.length * (width + 2) - 2) := by
  rw [toList_intervalLine, List.length_append, length_padLeft (h.headings f hf),
    List.length_append, List.length_append, List.length_append,
    length_row (forall_mem_cells h hf), List.length_map]
  show width + (2 + (1 + (1 + _))) = _
  omega

theorem words_headerLine (h : FitsTable width frequencies) :
    words (headerLine width frequencies).toList
      = frequencies.map fun f => f.text.toList := by
  rw [toList_headerLine, words_blanks_append (isBlank_of_mem_replicate _),
    words_row (forall_mem_headings h), List.map_map]
  rfl

theorem isWord_stroke : IsWord ['|'] :=
  ⟨List.cons_ne_nil _ _, List.forall_mem_singleton.mpr (by decide)⟩

theorem words_intervalLine (h : FitsTable width frequencies) (hf : f ∈ frequencies) :
    words (intervalLine width frequencies f).toList
      = f.text.toList :: ['|'] :: frequencies.map fun g => (g / f).text.toList := by
  rw [toList_intervalLine,
    words_padLeft_append (h.headings f hf) (isBlank_head?_replicate_append 1 _),
    words_blanks_append (isBlank_of_mem_replicate 2),
    words_append isWord_stroke (isBlank_head?_replicate_append 0 _),
    words_blanks_append (isBlank_of_mem_replicate 1), words_row (forall_mem_cells h hf),
    List.map_map]
  rfl

theorem wordEnds_headerLine (h : FitsTable width frequencies) :
    wordEnds 0 (headerLine width frequencies).toList
      = List.range' (width + 4 + width) frequencies.length (width + 2) := by
  rw [toList_headerLine, wordEnds_blanks_append (isBlank_of_mem_replicate _),
    wordEnds_row (forall_mem_headings h), List.length_replicate, List.length_map, Nat.zero_add]

/-- Behind the heading and the stroke the words of a row end where those of the header do. -/
theorem wordEnds_intervalLine (h : FitsTable width frequencies) (hf : f ∈ frequencies) :
    wordEnds 0 (intervalLine width frequencies f).toList
      = width :: (width + 3) :: List.range' (width + 4 + width) frequencies.length (width + 2) := by
  rw [toList_intervalLine,
    wordEnds_padLeft_append (h.headings f hf) (isBlank_head?_replicate_append 1 _),
    wordEnds_blanks_append (isBlank_of_mem_replicate 2),
    wordEnds_append isWord_stroke (isBlank_head?_replicate_append 0 _),
    wordEnds_blanks_append (isBlank_of_mem_replicate 1), wordEnds_row (forall_mem_cells h hf),
    List.length_map, Nat.zero_add]
  rfl

/-- No line of the table is two lines. -/
theorem newline_not_mem_lines (h : FitsTable width frequencies) :
    ∀ line ∈ ["", headerLine width frequencies, ruleLine width frequencies]
      ++ frequencies.map (intervalLine width frequencies) ++ ["", ""], '\n' ∉ line.toList := by
  have hreplicate : ∀ n, ∀ c : Char, '\n' ≠ c → '\n' ∉ List.replicate n c :=
    fun n c hc hmem => hc (List.eq_of_mem_replicate hmem)
  simp only [List.forall_mem_append, List.forall_mem_cons, List.not_mem_nil, false_implies,
    implies_true, and_true, List.forall_mem_map]
  refine ⟨⟨⟨by decide, ?_, ?_⟩, ?_⟩, by decide, by decide⟩
  · rw [toList_headerLine, List.mem_append, not_or]
    exact ⟨hreplicate _ ' ' (by decide), newline_not_mem_row (forall_mem_headings h)⟩
  · rw [toList_ruleLine, List.mem_append, not_or]
    exact ⟨hreplicate _ ' ' (by decide), hreplicate _ '-' (by decide)⟩
  · intro f hf
    simp only [toList_intervalLine, List.mem_append, not_or]
    exact ⟨not_mem_padLeft_of_isBlank (h.headings f hf) (by decide) (by decide), by decide,
      by decide, by decide, newline_not_mem_row (forall_mem_cells h hf)⟩

end Lines

/-! ### The table -/

/-- The lines of a table of intervals as the eye takes them in: which words they have, and that
they are equally long, with the cells of a column right below its heading. -/
structure IsIntervalTable (frequencies : List Number) (header rule : List Char)
    (rows : List (List Char)) : Prop where
  words_header : words header = frequencies.map fun f => f.text.toList
  words_rows : rows.map words = frequencies.map fun f =>
    f.text.toList :: ['|'] :: frequencies.map fun g => (g / f).text.toList
  rule_eq : ∃ blanks dashes, rule = List.replicate blanks ' ' ++ List.replicate (dashes + 1) '-'
  length_eq : ∀ line ∈ rule :: rows, line.length = header.length
  wordEnds_eq : ∀ row ∈ rows, (wordEnds 0 row).drop 2 = wordEnds 0 header

theorem isIntervalTable {width : ℕ} {frequencies : List Number} (h : FitsTable width frequencies) :
    IsIntervalTable frequencies (headerLine width frequencies).toList
      (ruleLine width frequencies).toList
      ((frequencies.map (intervalLine width frequencies)).map String.toList) where
  words_header := words_headerLine h
  words_rows := by
    rw [List.map_map, List.map_map]
    refine List.map_congr_left fun f hf => ?_
    rw [Function.comp_apply, Function.comp_apply, words_intervalLine h hf]
  rule_eq := ⟨_, _, toList_ruleLine width frequencies⟩
  length_eq := by
    simp only [List.forall_mem_cons, List.forall_mem_map]
    rw [length_headerLine h, length_ruleLine h]
    exact ⟨rfl, fun f hf => length_intervalLine h hf⟩
  wordEnds_eq := by
    simp only [List.forall_mem_map]
    intro f hf
    rw [wordEnds_intervalLine h hf, wordEnds_headerLine h]
    rfl

/-- The table of intervals is empty for silence. Otherwise it has a header, a rule and a row for
each of the distinct frequencies that sound, from the lowest to the highest, between two empty
lines. All of these lines are equally long. The words of the header are the frequencies, those of
a row its frequency, a stroke, and the intervals from that to all of them, each of which ends at
the place where its column's heading ends. -/
theorem intervalTable_aligned :
    (∀ music : Music, music.frequencies = [] → music.intervalTable = "") ∧
    ∀ music : Music, music.frequencies ≠ [] → music.IsFrequencySet music.frequencies ∧
      ∃ header rule rows,
        music.intervalTable.toList.splitOn '\n' = [] :: header :: rule :: rows ++ [[], []] ∧
          IsIntervalTable music.frequencies header rule rows := by
  refine ⟨?_, ?_⟩
  · intro music h
    rw [Music.intervalTable, h]
    rfl
  · intro music h
    obtain ⟨width, hfits, htext⟩ := exists_tableText h
    refine ⟨Music.isFrequencySet_frequencies music, _, _, _, ?_, isIntervalTable hfits⟩
    rw [Music.intervalTable, htext, splitOn_intercalate (by simp) (newline_not_mem_lines hfits),
      List.map_append, List.map_append]
    rfl

/-- Three notes and a rest that sound together, not in ascending order. -/
def septimalChord : List Note :=
  [⟨.ratio (.ofInt 8), .one, .one⟩, ⟨.ratio (.ofInt 6), .one, .one⟩, .rest .one,
    ⟨.ratio (.ofInt 7), .one, .one⟩]

example : (Music.chord septimalChord).intervalTable = "\n".intercalate
    ["", "         6    7    8", "     ---------------", "  6  |   1  7/6  4/3",
      "  7  | 6/7    1  8/7", "  8  | 3/4  7/8    1", "", ""] := by
  decide +kernel

theorem intervalTable_septimalChord :
    (Music.note (.rest .one)).frequencies = [] ∧ (Music.note (.rest .one)).intervalTable = "" ∧
    (Music.chord septimalChord).frequencies ≠ [] ∧
    (Music.chord septimalChord).IsFrequencySet (Music.chord septimalChord).frequencies ∧
    ∃ header rule rows,
      (Music.chord septimalChord).intervalTable.toList.splitOn '\n'
        = [] :: header :: rule :: rows ++ [[], []] ∧
        IsIntervalTable (Music.chord septimalChord).frequencies header rule rows := by
  have hrest : (Music.note (.rest .one)).frequencies = [] := by decide +kernel
  have hchord : (Music.chord septimalChord).frequencies ≠ [] := by decide +kernel
  exact ⟨hrest, intervalTable_aligned.1 _ hrest, hchord, intervalTable_aligned.2 _ hchord⟩

end Report

end JustIntonation
