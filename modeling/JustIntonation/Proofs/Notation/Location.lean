/-
JustIntonation/Proofs/Notation/Location.lean

Where an error is said to be, and where it is.

An error names its place three times: as a byte offset, as line and column,
and by what stands there.  The places of a text are its character boundaries,
`source.Pos`, so the bytes of a character of several bytes are counted and
never split.  A reader who goes down to the line and over the characters of
the column arrives at the offset (`SyntaxError.PointsAt.walk`); places that
lie further on in the text have a later line, or a later column in the same
line (`lineAndColumn_append`), so line and column determine the place.

Main result: all three agree with the place that an error was located at, and
an offset behind the end means the end (`locate_faithful`).
-/
import JustIntonation.Proofs.Notation.Completion

namespace JustIntonation

namespace Text

/-! ### Lines and columns -/

/-- Further on in a text the line is a later one, or the column in the same line. -/
theorem lineAndColumn_append (before : List Char) {more : List Char} (h : more ≠ []) :
    (lineAndColumn before).1 < (lineAndColumn (before ++ more)).1 ∨
    (lineAndColumn before).1 = (lineAndColumn (before ++ more)).1 ∧
      (lineAndColumn before).2 < (lineAndColumn (before ++ more)).2 := by
  by_cases hbreak : '\n' ∈ more
  · have hcount := List.count_pos_iff.mpr hbreak
    refine .inl ?_
    simp only [lineAndColumn, List.count_append]
    omega
  · -- Without a line break the line goes on, and its characters are counted on.
    have hrow : ∀ c ∈ more.reverse, (c ≠ '\n' : Bool) = true := by
      intro c hc
      refine decide_eq_true ?_
      rintro rfl
      exact hbreak (List.mem_reverse.mp hc)
    have hlength := List.length_pos_iff.mpr h
    refine .inr ⟨?_, ?_⟩
    · simp only [lineAndColumn, List.count_append, List.count_eq_zero_of_not_mem hbreak,
        Nat.add_zero]
    · simp only [lineAndColumn]
      rw [List.reverse_append, List.takeWhile_append_of_pos hrow, List.length_append,
        List.length_reverse]
      omega

/-- What stands before a place is the lines above it, each with its line break, and the
beginning of its own line. -/
theorem exists_row (before : List Char) : ∃ above row, before = above ++ row ∧
    above.count '\n' + 1 = (lineAndColumn before).1 ∧
    (above = [] ∨ above.getLast? = some '\n') ∧ '\n' ∉ row ∧
    row.length + 1 = (lineAndColumn before).2 := by
  have hsplit : (before.reverse.dropWhile (· ≠ '\n')).reverse
      ++ (before.reverse.takeWhile (· ≠ '\n')).reverse = before := by
    rw [← List.reverse_append, List.takeWhile_append_dropWhile, List.reverse_reverse]
  have hrow : '\n' ∉ (before.reverse.takeWhile (· ≠ '\n')).reverse := by
    intro hmem
    have hne := List.mem_takeWhile_imp (List.mem_reverse.mp hmem)
    exact of_decide_eq_true hne rfl
  refine ⟨_, _, hsplit.symm, ?_, ?_, hrow, ?_⟩
  · -- All line breaks are in the lines above.
    have hcount := congrArg (List.count '\n') hsplit
    rw [List.count_append, List.count_eq_zero_of_not_mem hrow, Nat.add_zero] at hcount
    rw [hcount]
    rfl
  · have hfirst := List.head?_dropWhile_not (· ≠ '\n') before.reverse
    cases hlines : before.reverse.dropWhile (· ≠ '\n') with
    | nil => exact .inl rfl
    | cons c lines =>
      rw [hlines] at hfirst
      have hc : c = '\n' := not_not.mp (of_decide_eq_false hfirst)
      refine .inr ?_
      rw [List.getLast?_reverse, List.head?_cons, hc]
  · rw [List.length_reverse]
    rfl

/-- Splitting behind some characters gives these. -/
theorem splitAtByte_append (before after : List Char) :
    splitAtByte (byteLength before) (before ++ after) = (before, after) := by
  induction before with
  | nil => cases after <;> rfl
  | cons c before ih =>
    have hsize := c.utf8Size_pos
    obtain ⟨k, hk⟩ : ∃ k, byteLength (c :: before) = k + 1 :=
      ⟨byteLength (c :: before) - 1, by rw [Notation.byteLength_cons]; omega⟩
    have hrest : k + 1 - c.utf8Size = byteLength before := by
      rw [← hk, Notation.byteLength_cons, Nat.add_sub_cancel_left]
    rw [hk, List.cons_append, splitAtByte, hrest, ih]

/-! ### What stands at a place -/

/-- What is said of the characters that follow a place: that there are none, that the first is a
blank, or the longest run of others, in quotes. -/
inductive Shown : List Char → String → Prop
  | ending : Shown [] "end of input"
  | blank {c rest} (hc : isBlank c = true) : Shown (c :: rest) "whitespace"
  | run {run rest} (nonempty : run ≠ []) (visible : ∀ c ∈ run, isBlank c = false)
      (longest : ∀ c ∈ rest.head?, isBlank c = true) :
      Shown (run ++ rest) ("'" ++ String.ofList run ++ "'")

theorem shown_tokenAt (after : List Char) : Shown after (tokenAt after) := by
  cases after with
  | nil => exact .ending
  | cons c rest =>
    cases hc : isBlank c with
    | true =>
      have htoken : tokenAt (c :: rest) = "whitespace" := by simp [tokenAt, hc]
      rw [htoken]
      exact .blank hc
    | false =>
      have htoken : tokenAt (c :: rest)
          = "'" ++ String.ofList ((c :: rest).takeWhile (!isBlank ·)) ++ "'" := by
        simp [tokenAt, hc]
      have hlongest := List.head?_dropWhile_not (!isBlank ·) (c :: rest)
      have hshown : Shown ((c :: rest).takeWhile (!isBlank ·) ++ (c :: rest).dropWhile (!isBlank ·))
          ("'" ++ String.ofList ((c :: rest).takeWhile (!isBlank ·)) ++ "'") := by
        refine .run (by simp [hc]) ?_ ?_
        · intro d hd
          simpa using List.mem_takeWhile_imp hd
        · intro d hd
          rw [Option.mem_def.mp hd] at hlongest
          simpa using hlongest
      rwa [List.takeWhile_append_dropWhile, ← htoken] at hshown

/-- A text in quotes is neither of the two words. -/
theorem quoted_ne_word {token word : String} (h : word.toList.head? ≠ some '\'') :
    "'" ++ token ++ "'" ≠ word := by
  rintro rfl
  exact h (by simp)

theorem Shown.eq_end_iff {after : List Char} {token : String} (h : Shown after token) :
    token = "end of input" ↔ after = [] := by
  cases h with
  | ending => exact ⟨fun _ => rfl, fun _ => rfl⟩
  | blank hc => exact ⟨fun h => absurd h (by decide), fun h => absurd h (List.cons_ne_nil _ _)⟩
  | run nonempty =>
    constructor
    · intro h
      exact absurd h (quoted_ne_word (by decide))
    · intro h
      exact absurd (List.append_eq_nil_iff.mp h).1 nonempty

theorem Shown.eq_blank_iff {after : List Char} {token : String} (h : Shown after token) :
    token = "whitespace" ↔ ∃ c ∈ after.head?, isBlank c = true := by
  cases h with
  | ending => exact ⟨fun h => absurd h (by decide), by simp⟩
  | blank hc => exact ⟨fun _ => ⟨_, rfl, hc⟩, fun _ => rfl⟩
  | @run run rest nonempty visible longest =>
    constructor
    · intro h
      exact absurd h (quoted_ne_word (by decide))
    · rintro ⟨c, hc, hblank⟩
      obtain ⟨d, ds, rfl⟩ := List.exists_cons_of_ne_nil nonempty
      obtain rfl : d = c := Option.some.inj hc
      rw [visible d List.mem_cons_self] at hblank
      cases hblank

end Text

namespace Notation

open Text

/-! ### Located errors -/

/-- What an error says of a place in a text. -/
structure SyntaxError.PointsAt (e : SyntaxError) {source : String} (p : source.Pos) : Prop where
  offset : e.offset = p.offset.byteIdx
  /-- From the start of the line over the characters before the column. -/
  walk : ∃ above row rest : String, p.Splits (above ++ row) rest ∧
    above.toList.count '\n' + 1 = e.line ∧ (above = "" ∨ above.toList.getLast? = some '\n') ∧
    '\n' ∉ row.toList ∧ row.length + 1 = e.column
  token : ∃ before after, p.Splits before after ∧ Shown after.toList e.token
  atEnd : e.token = "end of input" ↔ p = source.endPos
  atBlank : e.token = "whitespace" ↔ ∃ h : p ≠ source.endPos, isBlank (p.get h) = true

theorem locate_eq {source before after message : String} {p : source.Pos}
    (h : p.Splits before after) : SyntaxError.locate source p.offset.byteIdx message =
      { message
        token := tokenAt after.toList
        line := (lineAndColumn before.toList).1
        column := (lineAndColumn before.toList).2
        offset := p.offset.byteIdx } := by
  have htext : source.toList = before.toList ++ after.toList := by
    rw [← String.toList_append, ← h.eq_append]
  have hoffset : p.offset.byteIdx = byteLength before.toList := by
    rw [h.offset_eq_rawEndPos, String.byteIdx_rawEndPos, byteLength_toList]
  have hmin : min (byteLength before.toList) (byteLength (before.toList ++ after.toList))
      = byteLength before.toList := by
    rw [byteLength_append]
    exact Nat.min_eq_left (Nat.le_add_right _ _)
  simp only [SyntaxError.locate, hoffset, htext, hmin, splitAtByte_append]

/-- The character at a place is the first of those behind it. -/
theorem exists_head?_iff {source before after : String} {p : source.Pos} (h : p.Splits before after)
    (P : Char → Prop) :
    (∃ c ∈ after.toList.head?, P c) ↔ ∃ h : p ≠ source.endPos, P (p.get h) := by
  by_cases hend : p = source.endPos
  · rw [h.eq_endPos_iff.mp hend]
    constructor
    · rintro ⟨c, hc, -⟩
      cases hc
    · rintro ⟨hne, -⟩
      exact absurd hend hne
  · obtain ⟨rest, hrest⟩ := h.exists_eq_singleton_append hend
    rw [hrest, String.toList_append, String.toList_singleton, List.singleton_append,
      List.head?_cons]
    constructor
    · rintro ⟨c, hc, hP⟩
      obtain rfl := Option.some.inj hc
      exact ⟨hend, hP⟩
    · rintro ⟨hne, hP⟩
      exact ⟨_, rfl, hP⟩

theorem pointsAt_locate {source : String} (p : source.Pos) (message : String) :
    (SyntaxError.locate source p.offset.byteIdx message).PointsAt p := by
  have hsplits := p.splits
  generalize (source.sliceTo p).copy = before at hsplits
  generalize (source.sliceFrom p).copy = after at hsplits
  have hshown := shown_tokenAt after.toList
  rw [locate_eq hsplits]
  constructor
  case offset => rfl
  case walk =>
    obtain ⟨above, row, hbefore, hline, habove, hrow, hcolumn⟩ := exists_row before.toList
    have htext : before = String.ofList above ++ String.ofList row := by
      rw [← String.ofList_append, ← hbefore, String.ofList_toList]
    refine ⟨String.ofList above, String.ofList row, after, htext ▸ hsplits, ?_, ?_, ?_, ?_⟩
    · rwa [String.toList_ofList]
    · rwa [String.toList_ofList, String.ofList_eq_empty_iff]
    · rwa [String.toList_ofList]
    · rwa [String.length_ofList]
  case token => exact ⟨before, after, hsplits, hshown⟩
  case atEnd =>
    rw [hshown.eq_end_iff, hsplits.eq_endPos_iff, String.toList_eq_nil_iff]
  case atBlank =>
    rw [hshown.eq_blank_iff]
    exact exists_head?_iff hsplits fun c => isBlank c = true

/-- The place of an error comes first: by its line, and in one line by its column. -/
def SyntaxError.Precedes (e e' : SyntaxError) : Prop :=
  e.line < e'.line ∨ e.line = e'.line ∧ e.column < e'.column

section Order

variable {source : String} {p q : source.Pos}

theorem precedes_of_lt (h : p < q) (message message' : String) :
    (SyntaxError.locate source p.offset.byteIdx message).Precedes
      (SyntaxError.locate source q.offset.byteIdx message') := by
  obtain ⟨more, hmore, hbefore, -⟩ := (p.splits.lt_iff_exists_eq_append q.splits).mp h
  rw [locate_eq p.splits, locate_eq q.splits, hbefore, String.toList_append]
  exact lineAndColumn_append _ (mt String.toList_eq_nil_iff.mp hmore)

theorem pos_trichotomy (p q : source.Pos) : p < q ∨ p = q ∨ q < p := by
  obtain hlt | heq | hgt := Nat.lt_trichotomy p.offset.byteIdx q.offset.byteIdx
  · exact .inl hlt
  · exact .inr (.inl (String.Pos.ext (String.Pos.Raw.ext heq)))
  · exact .inr (.inr hgt)

theorem eq_iff_line_column (message message' : String) :
    p = q ↔ (SyntaxError.locate source p.offset.byteIdx message).line
        = (SyntaxError.locate source q.offset.byteIdx message').line ∧
      (SyntaxError.locate source p.offset.byteIdx message).column
        = (SyntaxError.locate source q.offset.byteIdx message').column := by
  constructor
  · rintro rfl
    exact ⟨rfl, rfl⟩
  · rintro ⟨hline, hcolumn⟩
    -- Of two different places one precedes the other, by its line or by its column.
    obtain hlt | heq | hgt := pos_trichotomy p q
    · have hbefore := precedes_of_lt hlt message message'
      rw [SyntaxError.Precedes] at hbefore
      omega
    · exact heq
    · have hbefore := precedes_of_lt hgt message' message
      rw [SyntaxError.Precedes] at hbefore
      omega

theorem lt_iff_precedes (message message' : String) :
    p < q ↔ (SyntaxError.locate source p.offset.byteIdx message).Precedes
      (SyntaxError.locate source q.offset.byteIdx message') := by
  constructor
  · exact fun h => precedes_of_lt h message message'
  · intro h
    obtain hlt | heq | hgt := pos_trichotomy p q
    · exact hlt
    · obtain ⟨hline, hcolumn⟩ := (eq_iff_line_column message message').mp heq
      rw [SyntaxError.Precedes] at h
      omega
    · have hbefore := precedes_of_lt hgt message' message
      rw [SyntaxError.Precedes] at h hbefore
      omega

end Order

/-- An error points at the place where it was located.  Lines and columns are in the order of
the places, so they tell any two places apart, and an offset behind the end of the text means its
end. -/
theorem locate_faithful {source : String} (p q : source.Pos) (message message' : String)
    (beyond : Nat) :
    (SyntaxError.locate source p.offset.byteIdx message).PointsAt p ∧
    (p < q ↔ (SyntaxError.locate source p.offset.byteIdx message).Precedes
      (SyntaxError.locate source q.offset.byteIdx message')) ∧
    (p = q ↔ (SyntaxError.locate source p.offset.byteIdx message).line
        = (SyntaxError.locate source q.offset.byteIdx message').line ∧
      (SyntaxError.locate source p.offset.byteIdx message).column
        = (SyntaxError.locate source q.offset.byteIdx message').column) ∧
    SyntaxError.locate source (source.utf8ByteSize + beyond) message
      = SyntaxError.locate source source.endPos.offset.byteIdx message := by
  refine ⟨pointsAt_locate p message, lt_iff_precedes message message',
    eq_iff_line_column message message', ?_⟩
  have hsize : byteLength source.toList = source.endPos.offset.byteIdx := by
    rw [byteLength_toList, String.offset_endPos, String.byteIdx_rawEndPos]
  have hbeyond : min (source.utf8ByteSize + beyond) (byteLength source.toList)
      = min source.endPos.offset.byteIdx (byteLength source.toList) := by
    rw [← hsize, ← byteLength_toList]
    omega
  simp only [SyntaxError.locate, hbeyond]

/-- Below an empty line, behind a letter of two bytes. -/
example : (SyntaxError.locate "é\n\nüx y" 6 "unexpected input").text
    = "syntax error at line 3, column 2: unexpected input (found 'x')" := by decide +kernel

end Notation

end JustIntonation
