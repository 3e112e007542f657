/-
JustIntonation/Proofs/Toml/Document.lean

Plain documents and their statements.

A *plain document* (`Document`) is made of empty lines, comments, and lines
that hold one statement each and end in a line feed.  What a reader of
documents makes of such lines only depends on what they say: each rule of
`Document` is one step of the reader (`readStatements_of_document`), and no
line has anything in it that joins it to the next (`read_of_document`).

A statement of one line is a pair of a bare key and a value, which is a string
without escapes or anything unquoted (`isLine_pair`), or the header of an
element of an array (`isLine_element`).
-/
import JustIntonation.Proofs.Toml.Numeral
import JustIntonation.Toml.Reader

namespace JustIntonation.Toml

/-! ### Lines -/

/-- A line holds one statement, and nothing behind the end of the line counts for it. -/
structure IsLine (line : List Char) (s : Statement) : Prop where
  first : ∀ rest, skipLines false (line ++ rest) = some (line ++ rest)
  reads : ∀ rest, readStatement (line ++ '\n' :: rest) = some (s, '\n' :: rest)
  noReturn : '\r' ∉ line

/-- Empty lines, comments and statements, with the statements. -/
inductive Document : List Char → List Statement → Prop
  | nil : Document [] []
  | empty {cs ss} (rest : Document cs ss) : Document ('\n' :: cs) ss
  | comment {cs ss text} (plain : ∀ c ∈ text, isPlain c = true) (rest : Document cs ss) :
      Document ('#' :: (text ++ '\n' :: cs)) ss
  | statement {cs ss line s} (isLine : IsLine line s) (rest : Document cs ss) :
      Document (line ++ '\n' :: cs) (s :: ss)

section Reading

variable {cs cs' text line : List Char} {ss : List Statement} {s : Statement}

theorem skipLines_comment (h : ∀ c ∈ text, isPlain c = true) :
    skipLines true (text ++ '\n' :: cs) = skipLines false cs := by
  induction text with
  | nil => rfl
  | cons c text ih =>
    obtain ⟨hc, htext⟩ := List.forall_mem_cons.mp h
    have hbreak : c ≠ '\n' := by
      rintro rfl
      cases hc
    rw [List.cons_append, skipLines, if_neg hbreak, if_pos hc, ih htext]

/-- What stands in front of the first statement does not count. -/
theorem readStatements_congr (h : skipLines false cs = skipLines false cs') (steps : ℕ) :
    readStatements steps cs = readStatements steps cs' := by
  cases steps with
  | zero => rfl
  | succ steps => rw [readStatements, h, readStatements]

theorem readStatements_of_document (h : Document cs ss) :
    ∀ steps, cs.length < steps → readStatements steps cs = some ss := by
  induction h with
  | nil =>
    rintro (_ | steps) hsteps
    · cases hsteps
    · rfl
  | @empty cs ss _ ih =>
    intro steps hsteps
    have hskip : skipLines false ('\n' :: cs) = skipLines false cs := rfl
    rw [readStatements_congr hskip, ih steps (by simp at hsteps; omega)]
  | @comment cs ss text plain _ ih =>
    intro steps hsteps
    have hskip : skipLines false ('#' :: (text ++ '\n' :: cs)) = skipLines false cs :=
      skipLines_comment plain
    rw [readStatements_congr hskip, ih steps (by simp at hsteps; omega)]
  | @statement cs ss line s isLine _ ih =>
    rintro (_ | steps) hsteps
    · cases hsteps
    · obtain ⟨c, r, hcons⟩ : ∃ c r, line ++ '\n' :: cs = c :: r :=
        List.exists_cons_of_ne_nil (by simp)
      have hfirst := isLine.first ('\n' :: cs)
      have hread := isLine.reads cs
      have hend : endLine ('\n' :: cs) = some ('\n' :: cs) := rfl
      have hskip : skipLines false ('\n' :: cs) = skipLines false cs := rfl
      have hrest := ih steps (by simp at hsteps; omega)
      rw [readStatements, hfirst]
      rw [hcons] at hread ⊢
      simp only [hread, hend]
      rw [readStatements_congr hskip, hrest]
      rfl

theorem noReturn_of_document (h : Document cs ss) : '\r' ∉ cs := by
  induction h with
  | nil => exact List.not_mem_nil
  | empty _ ih => simpa using ih
  | comment plain _ ih =>
    have htext := fun hmem => Bool.false_ne_true (plain '\r' hmem)
    simpa [ih] using htext
  | statement isLine _ ih => simpa [ih] using isLine.noReturn

theorem joinLineEnds_of_noReturn (h : '\r' ∉ cs) : joinLineEnds cs = cs := by
  induction cs with
  | nil => rfl
  | cons c cs ih =>
    obtain ⟨hc, hcs⟩ := not_or.mp (mt List.mem_cons.mpr h)
    rw [joinLineEnds, ih hcs]
    rintro r rfl
    exact absurd rfl hc

/-- What a plain document that begins with a comment is read as. -/
theorem read_of_document {document : String} (h : Document document.toList ss)
    (hfirst : document.toList.head? = some '#') :
    read document = (tableOfStatements ss).bind Table.withDates := by
  have hmark : skipMark document.toList = document.toList := by
    rw [skipMark]
    rintro r heq
    rw [heq] at hfirst
    cases hfirst
  rw [read, hmark, joinLineEnds_of_noReturn (noReturn_of_document h)]
  simp only [readStatements_of_document h _ (Nat.lt_succ_self _)]
  rfl

end Reading

/-! ### Keys -/

section Keys

variable {key : String} {c d : Char} {r s : List Char}

/-- A key that needs no quotes. -/
structure IsBare (key : String) : Prop where
  ne_nil : key.toList ≠ []
  chars : ∀ c ∈ key.toList, isBareKey c = true

theorem isBlank_of_isBareKey (h : isBareKey c = true) : isBlank c = false := by
  rw [Bool.eq_false_iff]
  intro hblank
  rw [isBlank, Bool.or_eq_true, decide_eq_true_eq, decide_eq_true_eq] at hblank
  rcases hblank with rfl | rfl <;> cases h

/-- What belongs to no bare key does not occur in one. -/
theorem IsBare.not_mem (h : IsBare key) (hd : isBareKey d = false) : d ∉ key.toList :=
  fun hmem => Bool.false_ne_true (hd.symm.trans (h.chars d hmem))

theorem IsBare.exists_cons (h : IsBare key) : ∃ c r, key.toList = c :: r ∧ isBareKey c = true := by
  obtain ⟨c, r, hcons⟩ := List.exists_cons_of_ne_nil h.ne_nil
  exact ⟨c, r, hcons, h.chars c (hcons ▸ List.mem_cons_self)⟩

theorem IsBare.append_ne (h : IsBare key) (hd : isBareKey d = false) :
    key.toList ++ r ≠ d :: s := by
  obtain ⟨c, t, hcons, -⟩ := h.exists_cons
  intro heq
  rw [hcons] at heq
  obtain ⟨rfl, -⟩ := List.cons.inj heq
  exact h.not_mem hd (hcons ▸ List.mem_cons_self)

/-- A bare key ends where something stands that belongs to no such key. -/
theorem readKey_of_isBare (h : IsBare key) (hc : isBareKey c = false) :
    readKey (key.toList ++ c :: r) = some (key, c :: r) := by
  have hstop : ∀ d ∈ (c :: r).head?, isBareKey d = false := by simpa using hc
  obtain ⟨htake, hdrop⟩ := takeWhile_append_of_all h.chars hstop
  rw [readKey]
  · simp only [htake, hdrop, List.isEmpty_iff, h.ne_nil, if_false, String.ofList_toList]
  · exact fun _ => h.append_ne rfl
  · exact fun _ => h.append_ne rfl

/-- No blanks are skipped where there are none. -/
theorem skipBlanks_of_first (h : isBlank c = false) : skipBlanks (c :: r) = c :: r := by
  rw [skipBlanks, List.dropWhile_cons_of_neg (by simp [h])]

theorem readPath_of_isBare (h : IsBare key) (hc : isBareKey c = false)
    (hrest : (skipBlanks (c :: r)).head? ≠ some '.') :
    readPath maxDepth (key.toList ++ c :: r) = some ([key], skipBlanks (c :: r)) := by
  have hblank : skipBlanks (key.toList ++ c :: r) = key.toList ++ c :: r := by
    obtain ⟨d, s, hcons, hd⟩ := h.exists_cons
    rw [hcons]
    exact skipBlanks_of_first (isBlank_of_isBareKey hd)
  rw [maxDepth, readPath, hblank, readKey_of_isBare h hc]
  simp only
  split
  · rename_i heq
    rw [heq] at hrest
    exact absurd rfl hrest
  · rfl

end Keys

/-! ### Values -/

section Values

variable {text : List Char} {v : Value}

/-- A text is read as a value, whatever stands on the lines below. -/
structure IsValue (text : List Char) (v : Value) : Prop where
  first : ∃ c r, text = c :: r ∧ isBlank c = false
  reads : ∀ rest, readValue maxDepth (text ++ '\n' :: rest) = some (v, '\n' :: rest)
  noReturn : '\r' ∉ text

/-- An unquoted text with nothing in it that would end it. -/
structure IsToken (text : List Char) : Prop where
  first : ∃ c r, text = c :: r ∧ c ∉ ['"', '\x27', '[', '\x7b']
  chars : ∀ c ∈ text, isDelimiter c = false ∧ c ≠ '\r'

theorem isBlank_of_isDelimiter {c : Char} (h : isDelimiter c = false) : isBlank c = false := by
  simp only [isDelimiter, Bool.or_eq_false_iff] at h
  exact h.1.1.1.1.1

theorem isDigit_of_isDelimiter {c : Char} (h : isDelimiter c = true) : c.isDigit = false := by
  simp only [isDelimiter, isBlank, Bool.or_eq_true, decide_eq_true_eq] at h
  rcases h with (((((rfl | rfl) | rfl) | rfl) | rfl) | rfl) | rfl <;> rfl

/-- Nothing in a number ends it. -/
theorem isToken_of_isNumeric (h : IsNumeric text) : IsToken text := by
  have hdigit : ∀ c d : Char, c.isDigit = true → d.isDigit = false → c ≠ d := by
    rintro c d hc hd rfl
    exact Bool.false_ne_true (hd.symm.trans hc)
  constructor
  · obtain ⟨c, r, rfl, hc⟩ := h.head
    refine ⟨c, r, rfl, ?_⟩
    simp only [List.mem_cons, List.not_mem_nil, or_false, not_or]
    exact ⟨hdigit c _ hc rfl, hdigit c _ hc rfl, hdigit c _ hc rfl, hdigit c _ hc rfl⟩
  · intro c hc
    rcases h.chars c hc with hc | rfl | rfl | rfl
    · refine ⟨?_, hdigit c _ hc rfl⟩
      rw [Bool.eq_false_iff]
      exact fun hdelimiter => Bool.false_ne_true ((isDigit_of_isDelimiter hdelimiter).symm.trans hc)
    all_goals decide

theorem cutScalar_of_isToken (h : IsToken text) (rest : List Char) :
    cutScalar (text ++ '\n' :: rest) = (text, '\n' :: rest) := by
  have hchars : ∀ c ∈ text, (!isDelimiter c) = true := fun c hc => by simp [(h.chars c hc).1]
  have hstop : ∀ c ∈ ('\n' :: rest).head?, (!isDelimiter c) = false := by simp [isDelimiter]
  obtain ⟨htake, hdrop⟩ := takeWhile_append_of_all hchars hstop
  rw [cutScalar, htake, hdrop]
  rfl

theorem isValue_of_scalar? (h : IsToken text) (hv : scalar? text = some v) : IsValue text v := by
  obtain ⟨c, r, rfl, hc⟩ := h.first
  refine ⟨⟨c, r, rfl, isBlank_of_isDelimiter (h.chars c List.mem_cons_self).1⟩, ?_, ?_⟩
  · intro rest
    have hread : readScalar (c :: r ++ '\n' :: rest) = some (v, '\n' :: rest) := by
      rw [readScalar, cutScalar_of_isToken h]
      simp only [hv, Option.map_some]
    simp only [List.mem_cons, List.not_mem_nil, or_false, not_or] at hc
    rw [← hread, List.cons_append, readValue]
    · rintro _ heq
      exact hc.1 (List.cons.inj heq).1
    · rintro _ heq
      exact hc.2.1 (List.cons.inj heq).1
    · rintro _ _ _ heq
      exact hc.2.2.1 (List.cons.inj heq).1
    · rintro _ _ _ heq
      exact hc.2.2.2 (List.cons.inj heq).1
  · intro hmem
    exact (h.chars _ hmem).2 rfl

/-- A character that stands for itself in a string. -/
def IsLetter (c : Char) : Prop := isPlain c = true ∧ c ≠ '"' ∧ c ≠ '\\'

theorem cutLine_of_isLetter (h : ∀ c ∈ text, IsLetter c) (rest : List Char) :
    cutLine .basic (text ++ '"' :: '\n' :: rest) = some (text, '\n' :: rest) := by
  induction text with
  | nil => rfl
  | cons c text ih =>
    obtain ⟨⟨hplain, hquote, hescape⟩, htext⟩ := List.forall_mem_cons.mp h
    obtain ⟨d, r, hcons⟩ : ∃ d r, text ++ '"' :: '\n' :: rest = d :: r :=
      List.exists_cons_of_ne_nil (by simp)
    have hrest := ih htext
    rw [hcons] at hrest
    have hopen : c ≠ Quote.basic.char := hquote
    rw [List.cons_append, hcons, cutLine, if_neg hopen, hplain, hrest]
    simp [hescape]

theorem unescape_of_isLetter (h : ∀ c ∈ text, IsLetter c) : unescape false text = some text := by
  induction text with
  | nil => rfl
  | cons c text ih =>
    obtain ⟨⟨-, -, hescape⟩, htext⟩ := List.forall_mem_cons.mp h
    rw [unescape, ih htext]
    · rfl
    all_goals
      intros
      exact hescape ‹c = '\\'›

/-- A string of letters between quotes. -/
theorem isValue_string {s : String} (h : ∀ c ∈ s.toList, IsLetter c) :
    IsValue ('"' :: (s.toList ++ ['"'])) (.string s) := by
  refine ⟨⟨_, _, rfl, rfl⟩, ?_, ?_⟩
  · intro rest
    have hline : readLine .basic (s.toList ++ '"' :: '\n' :: rest) = some (s, '\n' :: rest) := by
      rw [readLine, cutLine_of_isLetter h]
      simp [Quote.text?, unescape_of_isLetter h]
    have htext : '"' :: (s.toList ++ ['"']) ++ '\n' :: rest
        = '"' :: (s.toList ++ '"' :: '\n' :: rest) := by simp
    rw [htext, readValue, readString, hline]
    · rfl
    · -- The quotes are not tripled.
      rintro r heq
      cases hs : s.toList with
      | nil =>
        rw [hs] at heq
        cases heq
      | cons c cs =>
        rw [hs] at heq
        exact (h c (hs ▸ List.mem_cons_self)).2.1 (List.cons.inj heq).1
  · intro hmem
    simp only [List.mem_cons, List.mem_append, List.not_mem_nil, or_false] at hmem
    rcases hmem with hmem | hmem | hmem
    · cases hmem
    · exact Bool.false_ne_true (h _ hmem).1
    · cases hmem

end Values

/-! ### Statements -/

section Statements

variable {key : String} {text : List Char} {v : Value}

/-- A key, an equals sign and a value, up to the end of the line. -/
theorem readPair_of_isValue (hkey : IsBare key) (hv : IsValue text v) (rest : List Char) :
    readPair (readValue maxDepth) (key.toList ++ ' ' :: '=' :: ' ' :: (text ++ '\n' :: rest))
      = some (([key], v), '\n' :: rest) := by
  have hequals : skipBlanks (' ' :: '=' :: ' ' :: (text ++ '\n' :: rest))
      = '=' :: ' ' :: (text ++ '\n' :: rest) := rfl
  have hblank : skipBlanks (' ' :: (text ++ '\n' :: rest)) = text ++ '\n' :: rest := by
    obtain ⟨c, r, rfl, hc⟩ := hv.first
    exact skipBlanks_of_first hc
  rw [readPair, readPath_of_isBare hkey rfl (by simp [hequals]), hequals]
  simp only [hblank, hv.reads, Option.map_some]

theorem isLine_pair (hkey : IsBare key) (hv : IsValue text v) :
    IsLine (key.toList ++ ' ' :: '=' :: ' ' :: text) (.pair [key] v) := by
  refine ⟨?_, ?_, ?_⟩
  · intro rest
    obtain ⟨c, r, hcons, hc⟩ := hkey.exists_cons
    have hcomment : c ≠ '#' := by
      rintro rfl
      cases hc
    have hbreak : c ≠ '\n' := by
      rintro rfl
      cases hc
    rw [hcons]
    simp [skipLines, hcomment, isBlank_of_isBareKey hc, hbreak]
  · intro rest
    have htext : key.toList ++ ' ' :: '=' :: ' ' :: text ++ '\n' :: rest
        = key.toList ++ ' ' :: '=' :: ' ' :: (text ++ '\n' :: rest) := by simp
    rw [htext, readStatement, readPair_of_isValue hkey hv]
    · rfl
    · exact fun _ => hkey.append_ne rfl
    · exact fun _ => hkey.append_ne rfl
  · have hreturn : '\r' ∉ key.toList := hkey.not_mem rfl
    simp [hreturn, hv.noReturn]

theorem isLine_element (hkey : IsBare key) :
    IsLine ('[' :: '[' :: (key.toList ++ [']', ']'])) (.element [key]) := by
  refine ⟨fun rest => rfl, ?_, ?_⟩
  · intro rest
    have htext : '[' :: '[' :: (key.toList ++ [']', ']']) ++ '\n' :: rest
        = '[' :: '[' :: (key.toList ++ ']' :: ']' :: '\n' :: rest) := by simp
    have hblank : skipBlanks (']' :: ']' :: '\n' :: rest) = ']' :: ']' :: '\n' :: rest := rfl
    rw [htext, readStatement, readPath_of_isBare hkey rfl (by simp [hblank]), hblank]
    rfl
  · have hreturn : '\r' ∉ key.toList := hkey.not_mem rfl
    simp [hreturn]

end Statements

end JustIntonation.Toml
