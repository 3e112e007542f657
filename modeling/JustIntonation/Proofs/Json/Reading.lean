/-
JustIntonation/Proofs/Json/Reading.lean

The reader of JSON takes printed values back.

`Spells v text` says that the reader, in front of a text and of anything that
cannot continue a number, takes exactly that text and finds `v`.  As many
steps as the text has characters are enough for it, and fewer than `read`
allows.  The judgement has one lemma for every form of a value, and the same
is said of the items of an array and the members of an object with what closes
them (`SpellsItems`, `SpellsMembers`).

Main result: a value built from integers and from strings that have a text is
what is read from its printed form (`Value.Plain.read_pretty`).
-/
import JustIntonation.Json.Reader
import JustIntonation.Proofs.Text.Digits

namespace JustIntonation.Json

variable {v : Value} {vs : List Value} {c : Char} {cs ds rest : List Char} {steps level : ℕ}

/-! ### Spaces -/

theorem skipSpace_append {blank : List Char} (h : ∀ c ∈ blank, isSpace c = true)
    (cs : List Char) : skipSpace (blank ++ cs) = skipSpace cs :=
  List.dropWhile_append_of_pos h

theorem skipSpace_cons (h : isSpace c = false) (cs : List Char) :
    skipSpace (c :: cs) = c :: cs :=
  List.dropWhile_cons_of_neg (by simp [h])

theorem isSpace_of_isDigit (h : c.isDigit = true) : isSpace c = false := by
  rw [isSpace, Bool.eq_false_iff]
  intro hspace
  simp only [Bool.or_eq_true, decide_eq_true_eq] at hspace
  rcases hspace with ((rfl | rfl) | rfl) | rfl <;> cases h

theorem toList_lineBreak (level : ℕ) :
    (lineBreak level).toList = '\n' :: List.replicate (2 * level) ' ' := by
  simp [lineBreak]

theorem skipSpace_lineBreak (level : ℕ) (cs : List Char) :
    skipSpace ((lineBreak level).toList ++ cs) = skipSpace cs := by
  apply skipSpace_append
  intro c hc
  rw [toList_lineBreak, List.mem_cons] at hc
  rcases hc with rfl | hc
  · rfl
  · obtain rfl := List.eq_of_mem_replicate hc
    rfl

/-! ### Strings -/

/-- Prepend a code to what the rest of a string gives. -/
abbrev consCode (n : ℕ) (r : List ℕ × List Char) : List ℕ × List Char := (n :: r.1, r.2)

theorem readCodes_escaped {e : Char} {n : ℕ} (h : escaped? e = some n) (cs : List Char) :
    readCodes ('\\' :: e :: cs) = (readCodes cs).map (consCode n) := by
  rw [readCodes, h]
  · cases readCodes cs <;> rfl
  · rintro a b c d r rfl
    cases h

theorem readCodes_code {a b c d : Char} {n : ℕ} (h : hex4? a b c d = some n) (cs : List Char) :
    readCodes ('\\' :: 'u' :: a :: b :: c :: d :: cs) = (readCodes cs).map (consCode n) := by
  rw [readCodes, h]
  cases readCodes cs <;> rfl

theorem readCodes_plain (hquote : c ≠ '"') (hslash : c ≠ '\\') (hcontrol : ¬ c.toNat < 32)
    (cs : List Char) : readCodes (c :: cs) = (readCodes cs).map (consCode c.toNat) := by
  rw [readCodes, if_neg hcontrol]
  · cases readCodes cs <;> rfl
  · exact fun heq => hquote heq
  · exact fun a b c d r heq _ => hslash heq
  · exact fun e r heq _ => hslash heq

theorem hex4?_hexDigit :
    ∀ n < 32, hex4? '0' '0' (hexDigit (n / 16)) (hexDigit (n % 16)) = some n := by decide

/-- A character as it is escaped is read as its code. -/
theorem readCodes_escapeChar (c : Char) (cs : List Char) :
    readCodes (escapeChar c ++ cs) = (readCodes cs).map (consCode c.toNat) := by
  -- One case for each escape, in the order in which the writer tries them.
  unfold escapeChar
  split_ifs with hquote hslash hline hreturn htab hback hfeed hcontrol
  · subst hquote; exact readCodes_escaped rfl cs
  · subst hslash; exact readCodes_escaped rfl cs
  · subst hline; exact readCodes_escaped rfl cs
  · subst hreturn; exact readCodes_escaped rfl cs
  · subst htab; exact readCodes_escaped rfl cs
  · rw [hback]; exact readCodes_escaped rfl cs
  · rw [hfeed]; exact readCodes_escaped rfl cs
  · exact readCodes_code (hex4?_hexDigit _ hcontrol) cs
  · exact readCodes_plain hquote hslash hcontrol cs

theorem readCodes_flatMap (cs rest : List Char) :
    readCodes (cs.flatMap escapeChar ++ '"' :: rest) = some (cs.map Char.toNat, rest) := by
  induction cs with
  | nil => rw [List.flatMap_nil, List.nil_append, readCodes]; rfl
  | cons c cs ih => rw [List.flatMap_cons, List.append_assoc, readCodes_escapeChar, ih]; rfl

/-- No character is half of a surrogate pair. -/
theorem not_surrogate (c : Char) :
    isHighSurrogate c.toNat = false ∧ isLowSurrogate c.toNat = false := by
  have hvalid : c.toNat < 0xD800 ∨ 0xDFFF < c.toNat ∧ c.toNat < 0x110000 := c.valid
  constructor
  · rw [isHighSurrogate, Bool.and_eq_false_iff, decide_eq_false_iff_not, decide_eq_false_iff_not]
    omega
  · rw [isLowSurrogate, Bool.and_eq_false_iff, decide_eq_false_iff_not, decide_eq_false_iff_not]
    omega

theorem joinSurrogates_map_toNat (cs : List Char) :
    joinSurrogates (cs.map Char.toNat) = some cs := by
  induction cs with
  | nil => rfl
  | cons c cs ih =>
    obtain ⟨hhigh, hlow⟩ := not_surrogate c
    cases cs with
    | nil => simp [joinSurrogates, hhigh, hlow]
    | cons d ds =>
      rw [List.map_cons, List.map_cons] at *
      simp [joinSurrogates, hhigh, hlow, ih]

theorem readString_flatMap (s : String) (rest : List Char) :
    readString (s.toList.flatMap escapeChar ++ '"' :: rest) = some (some s, rest) := by
  rw [readString, readCodes_flatMap]
  simp [joinSurrogates_map_toNat]

theorem toList_quoted (s : String) :
    (quoted s).toList = '"' :: (s.toList.flatMap escapeChar ++ ['"']) := by
  simp [quoted]

/-! ### Numbers -/

/-- Nothing that could continue an integer. -/
def EndsInteger (cs : List Char) : Prop :=
  ∀ c ∈ cs.head?, c.isDigit = false ∧ c ≠ '.' ∧ c ≠ 'e' ∧ c ≠ 'E'

theorem readExponent_eq (h : EndsInteger rest) : readExponent rest = some (none, rest) := by
  cases rest with
  | nil => rfl
  | cons c rest =>
    obtain ⟨-, -, he, hE⟩ := h c rfl
    rw [readExponent, if_neg (by simp [he, hE])]

theorem endsInteger_lineBreak (level : ℕ) (cs : List Char) :
    EndsInteger ((lineBreak level).toList ++ cs) := by
  rw [toList_lineBreak]
  rintro c ⟨⟩
  decide

theorem endsInteger_comma (cs : List Char) : EndsInteger (',' :: cs) := by
  rintro c ⟨⟩
  decide

/-- The digits of a number are a lone zero, or do not begin with one. -/
theorem toDigits_cases (n : ℕ) :
    Nat.toDigits 10 n = ['0'] ∨
      ∃ d ds, Nat.toDigits 10 n = d :: ds ∧ d.isDigit = true ∧ d ≠ '0' := by
  by_cases hn : n = 0
  · exact .inl (hn ▸ rfl)
  · obtain ⟨d, ds, hds⟩ := List.exists_cons_of_ne_nil (Nat.toDigits_ne_nil (b := 10) (n := n))
    have hd := Text.head?_toDigits_ne hn
    rw [hds] at hd
    refine .inr ⟨d, ds, hds, Text.isDigit_of_mem_toDigits (n := n) ?_, ?_⟩
    · rw [hds]
      exact List.mem_cons_self
    · exact fun heq => hd (congrArg some heq)

theorem readNumber_toDigits (negative : Bool) (n : ℕ) (h : EndsInteger rest) :
    readNumber ((if negative then ['-'] else []) ++ (Nat.toDigits 10 n ++ rest))
      = some (⟨negative, n, 0, true⟩, rest) := by
  -- The reader looks for a point; `simp` needs this to pass by the fraction.
  have hpoint : ∀ r, rest = '.' :: r → False := by
    rintro r rfl
    exact (h _ rfl).2.1 rfl
  have hdigits := takeWhile_append_of_all
    (fun c (hc : c ∈ Nat.toDigits 10 n) => Text.isDigit_of_mem_toDigits hc)
    fun c hc => (h c hc).1
  have hvalue : Binary64.digitsValue (Nat.toDigits 10 n) = n := by
    rw [Text.digitsValue_eq, Nat.ofDigitChars_ten_toDigits]
  rcases toDigits_cases n with hzero | ⟨d, ds, hds, hdigit, hne⟩
  · rw [hzero] at hvalue ⊢
    cases negative <;> simp [readNumber, readExponent_eq h, hvalue]
  · rw [hds, List.cons_append] at hdigits
    rw [hds] at hvalue ⊢
    have hminus : d ≠ '-' := by rintro rfl; cases hdigit
    cases negative <;>
      simp [readNumber, hne, hminus, readExponent_eq h, hvalue, hdigits]

theorem toList_text_ofInt (i : ℤ) :
    (Numeral.ofInt i).text.toList
      = (if (Numeral.ofInt i).negative then ['-'] else []) ++ Nat.toDigits 10 i.natAbs := by
  have htext : (Numeral.ofInt i).text
      = (if (Numeral.ofInt i).negative then "-" else "") ++ toString i.natAbs := rfl
  rw [htext, String.toList_append, Text.toList_toString]
  split <;> rfl

theorem readNumber_ofInt (i : ℤ) (h : EndsInteger rest) :
    readNumber ((Numeral.ofInt i).text.toList ++ rest) = some (.ofInt i, rest) := by
  rw [toList_text_ofInt, List.append_assoc]
  exact readNumber_toDigits _ _ h

/-- An integer begins with a digit or its sign. -/
theorem exists_toList_text_ofInt (i : ℤ) :
    ∃ c cs, (Numeral.ofInt i).text.toList = c :: cs ∧ (c.isDigit = true ∨ c = '-') := by
  rw [toList_text_ofInt]
  split
  · exact ⟨'-', _, rfl, .inr rfl⟩
  · rcases toDigits_cases i.natAbs with hzero | ⟨d, ds, hds, hd, -⟩
    · exact ⟨'0', [], hzero, .inl rfl⟩
    · exact ⟨d, ds, hds, .inl hd⟩

/-! ### What the reader takes -/

theorem readValue_skipSpace (steps : ℕ) (h : skipSpace cs = skipSpace ds) :
    readValue steps cs = readValue steps ds := by
  cases steps with
  | zero => rfl
  | succ steps => rw [readValue, readValue, h]

theorem readItems_skipSpace (steps : ℕ) (h : skipSpace cs = skipSpace ds) :
    readItems steps cs = readItems steps ds := by
  cases steps with
  | zero => rfl
  | succ steps => rw [readItems, readItems, readValue_skipSpace steps h]

theorem readMembers_skipSpace (steps : ℕ) (h : skipSpace cs = skipSpace ds) :
    readMembers steps cs = readMembers steps ds := by
  cases steps with
  | zero => rfl
  | succ steps => rw [readMembers, readMembers, h]

/-- In front of the text and anything that cannot continue a number the reader finds `v` and
stops behind the text. -/
structure Spells (v : Value) (text : String) : Prop where
  reads : ∀ {steps rest}, text.toList.length ≤ steps → EndsInteger rest →
    readValue steps (text.toList ++ rest) = some (v, rest)
  starts : ∃ c cs, text.toList = c :: cs ∧ isSpace c = false ∧ c ≠ ']'

/-- The same of the items of an array and the bracket behind them. -/
structure SpellsItems (vs : List Value) (text : String) : Prop where
  reads : ∀ {steps rest}, text.toList.length ≤ steps →
    readItems steps (text.toList ++ rest) = some (vs, rest)
  starts : ∃ c cs, text.toList = c :: cs ∧ isSpace c = false ∧ c ≠ ']'

/-- The same of the members of an object and the brace behind them. -/
structure SpellsMembers (ms : List (Option String × Value)) (text : String) : Prop where
  reads : ∀ {steps rest}, text.toList.length ≤ steps →
    readMembers steps (text.toList ++ rest) = some (ms, rest)
  starts : ∃ cs, text.toList = '"' :: cs

/-- The text is not empty, so its length leaves a step. -/
theorem Spells.of_succ {text : String} (hlist : text.toList = c :: cs) (hspace : isSpace c = false)
    (hbracket : c ≠ ']')
    (h : ∀ steps rest, cs.length ≤ steps → EndsInteger rest →
      readValue (steps + 1) (c :: (cs ++ rest)) = some (v, rest)) : Spells v text := by
  refine ⟨?_, c, cs, hlist, hspace, hbracket⟩
  intro steps rest hsteps hrest
  rw [hlist] at hsteps ⊢
  cases steps with
  | zero => cases hsteps
  | succ steps => exact h steps rest (Nat.le_of_succ_le_succ hsteps) hrest

/-! ### Single values -/

theorem spells_null : Spells .null "null" :=
  Spells.of_succ rfl rfl (by decide) fun _ _ _ _ => rfl

theorem spells_bool (b : Bool) : Spells (.bool b) (if b then "true" else "false") := by
  cases b with
  | true => exact Spells.of_succ rfl rfl (by decide) fun _ _ _ _ => rfl
  | false => exact Spells.of_succ rfl rfl (by decide) fun _ _ _ _ => rfl

theorem spells_ofString (s : String) : Spells (.ofString s) (quoted s) := by
  apply Spells.of_succ (toList_quoted s) rfl (by decide)
  intro steps rest _ _
  rw [List.append_assoc, readValue, skipSpace_cons rfl]
  simp [readString_flatMap]
  rfl

theorem readValue_number (h : c.isDigit = true ∨ c = '-') (hspace : isSpace c = false) :
    readValue (steps + 1) (c :: cs) = (readNumber (c :: cs)).map fun r => (.number r.1, r.2) := by
  rw [readValue, skipSpace_cons hspace]
  split
  case h_7 => rfl
  -- Whatever else a value can be begins with neither a digit nor a minus sign.
  all_goals
    rename_i heq
    obtain ⟨rfl, -⟩ := List.cons.inj heq
    rcases h with h | h <;> cases h

theorem spells_ofInt (i : ℤ) : Spells (.ofInt i) (Numeral.ofInt i).text := by
  obtain ⟨c, cs, hcs, hc⟩ := exists_toList_text_ofInt i
  have hspace : isSpace c = false := hc.elim isSpace_of_isDigit (by rintro rfl; rfl)
  have hbracket : c ≠ ']' := by
    rintro rfl
    rcases hc with hc | hc <;> cases hc
  apply Spells.of_succ hcs hspace hbracket
  intro steps rest _ hrest
  have hnumber := readNumber_ofInt i hrest
  rw [hcs, List.cons_append] at hnumber
  rw [readValue_number hc hspace, hnumber]
  rfl

/-! ### Arrays -/

theorem bracketed_nil (opening closing : String) (level : ℕ) :
    bracketed opening closing level [] = opening ++ closing := rfl

theorem bracketed_of_ne_nil (opening closing : String) (level : ℕ) {members : List String}
    (h : members ≠ []) :
    bracketed opening closing level members
      = opening ++ lineBreak (level + 1)
        ++ (("," ++ lineBreak (level + 1)).intercalate members
          ++ (lineBreak level ++ closing)) := by
  rw [bracketed, if_neg (by simpa using h)]
  simp only [String.append_assoc]

theorem SpellsItems.last {text : String} (h : Spells v text) (level : ℕ) :
    SpellsItems [v] (text ++ (lineBreak level ++ "]")) := by
  obtain ⟨c, cs, hcs, hc⟩ := h.starts
  refine ⟨?_, c, _, by rw [String.toList_append, hcs]; rfl, hc⟩
  intro steps rest hsteps
  simp only [String.toList_append, List.length_append, List.append_assoc] at hsteps ⊢
  cases steps with
  | zero => simp [hcs] at hsteps
  | succ steps =>
    have hlength : text.toList.length ≤ steps := by
      have hbracket : "]".toList.length = 1 := rfl
      omega
    rw [readItems, h.reads hlength (endsInteger_lineBreak level _)]
    simp only [skipSpace_lineBreak]
    rfl

theorem SpellsItems.cons {text texts : String} (h : Spells v text) (level : ℕ)
    (hs : SpellsItems vs texts) :
    SpellsItems (v :: vs) (text ++ ("," ++ lineBreak level) ++ texts) := by
  obtain ⟨c, cs, hcs, hc⟩ := h.starts
  have hlist : (text ++ ("," ++ lineBreak level) ++ texts).toList
      = text.toList ++ ',' :: ((lineBreak level).toList ++ texts.toList) := by simp
  refine ⟨?_, c, _, by rw [hlist, hcs]; rfl, hc⟩
  intro steps rest hsteps
  rw [hlist, List.length_append, List.length_cons, List.length_append] at hsteps
  rw [hlist, List.append_assoc, List.cons_append, List.append_assoc]
  cases steps with
  | zero => omega
  | succ steps =>
    rw [readItems, h.reads (by omega) (endsInteger_comma _)]
    simp only [skipSpace_cons (rfl : isSpace ',' = false)]
    rw [readItems_skipSpace steps (skipSpace_lineBreak level _), hs.reads (by omega)]
    rfl

theorem SpellsItems.array {text : String} (h : SpellsItems vs text) (level : ℕ) :
    Spells (.array vs) ("[" ++ lineBreak level ++ text) := by
  have hlist : ("[" ++ lineBreak level ++ text).toList
      = '[' :: ((lineBreak level).toList ++ text.toList) := by simp
  apply Spells.of_succ hlist rfl (by decide)
  intro steps rest hsteps _
  rw [List.length_append] at hsteps
  have hread : readItems steps (text.toList ++ rest) = some (vs, rest) := h.reads (by omega)
  obtain ⟨c, cs, hcs, hspace, hbracket⟩ := h.starts
  rw [List.append_assoc, readValue, skipSpace_cons rfl]
  simp only [skipSpace_lineBreak]
  rw [hcs, List.cons_append] at hread ⊢
  rw [skipSpace_cons hspace]
  -- An item stands behind the bracket, so the array is not taken for an empty one.
  split
  · rename_i heq
    exact absurd (List.cons.inj heq).1 hbracket
  · rw [hread]
    rfl

/-- Printed items and the closing bracket, when each item alone is read back. -/
theorem spellsItems_intercalate {print : Value → String} (inner outer : ℕ) (hvs : vs ≠ [])
    (h : ∀ v ∈ vs, Spells v (print v)) :
    SpellsItems vs (("," ++ lineBreak inner).intercalate (vs.map print)
      ++ (lineBreak outer ++ "]")) := by
  induction vs with
  | nil => exact absurd rfl hvs
  | cons v vs ih =>
    obtain ⟨hv, hrest⟩ := List.forall_mem_cons.mp h
    cases vs with
    | nil =>
      rw [List.map_cons, List.map_nil, String.intercalate_singleton]
      exact SpellsItems.last hv outer
    | cons w vs =>
      rw [List.map_cons, List.map_cons, String.intercalate_cons_cons, String.append_assoc]
      exact SpellsItems.cons hv inner (ih (List.cons_ne_nil w vs) hrest)

theorem spells_array {print : Value → String} (level : ℕ) (h : ∀ v ∈ vs, Spells v (print v)) :
    Spells (.array vs) (bracketed "[" "]" level (vs.map print)) := by
  rcases eq_or_ne vs [] with rfl | hvs
  · rw [List.map_nil, bracketed_nil]
    exact Spells.of_succ rfl rfl (by decide) fun _ _ _ _ => rfl
  · rw [bracketed_of_ne_nil _ _ _ (by simpa using hvs)]
    exact (spellsItems_intercalate (level + 1) level hvs h).array (level + 1)

/-! ### Objects -/

/-- The text of a member. -/
def memberText (key text : String) : String := quoted key ++ ": " ++ text

theorem toList_memberText (key text : String) :
    (memberText key text).toList
      = '"' :: (key.toList.flatMap escapeChar ++ '"' :: ':' :: ' ' :: text.toList) := by
  simp [memberText, toList_quoted]

theorem readMembers_memberText {text : String} (key : String) (h : Spells v text)
    (hsteps : text.toList.length ≤ steps) (hends : EndsInteger rest) :
    (∀ r, skipSpace rest = ',' :: r →
      readMembers (steps + 1) ((memberText key text).toList ++ rest)
        = (readMembers steps r).map fun ms => ((some key, v) :: ms.1, ms.2)) ∧
    ∀ r, skipSpace rest = '\x7d' :: r →
      readMembers (steps + 1) ((memberText key text).toList ++ rest)
        = some ([(some key, v)], r) := by
  have hvalue : readValue steps (' ' :: (text.toList ++ rest)) = some (v, rest) := by
    rw [← h.reads hsteps hends]
    exact readValue_skipSpace steps rfl
  rw [toList_memberText, List.cons_append, List.append_assoc, readMembers, skipSpace_cons rfl]
  simp only [List.cons_append, readString_flatMap, skipSpace_cons (rfl : isSpace ':' = false),
    hvalue]
  constructor
  · intro r hr
    rw [hr]
    rfl
  · intro r hr
    rw [hr]
    rfl

theorem length_memberText (key text : String) :
    text.toList.length + 1 ≤ (memberText key text).toList.length := by
  rw [toList_memberText, List.length_cons, List.length_append, List.length_cons, List.length_cons,
    List.length_cons]
  omega

variable {ms : List (Option String × Value)}

theorem SpellsMembers.last {text : String} (key : String) (h : Spells v text) (level : ℕ) :
    SpellsMembers [(some key, v)] (memberText key text ++ (lineBreak level ++ "\x7d")) := by
  refine ⟨?_, _, by rw [String.toList_append, toList_memberText]; rfl⟩
  intro steps rest hsteps
  have hlength := length_memberText key text
  rw [String.toList_append, List.length_append] at hsteps
  rw [String.toList_append, List.append_assoc]
  cases steps with
  | zero => omega
  | succ steps =>
    refine (readMembers_memberText key h (by omega) ?_).2 rest ?_
    · rw [String.toList_append, List.append_assoc]
      exact endsInteger_lineBreak level _
    · rw [String.toList_append, List.append_assoc, skipSpace_lineBreak]
      rfl

theorem SpellsMembers.cons {text texts : String} (key : String) (h : Spells v text) (level : ℕ)
    (hs : SpellsMembers ms texts) :
    SpellsMembers ((some key, v) :: ms)
      (memberText key text ++ ("," ++ lineBreak level) ++ texts) := by
  have hlist : (memberText key text ++ ("," ++ lineBreak level) ++ texts).toList
      = (memberText key text).toList ++ ',' :: ((lineBreak level).toList ++ texts.toList) := by simp
  refine ⟨?_, _, by rw [hlist, toList_memberText]; rfl⟩
  intro steps rest hsteps
  have hlength := length_memberText key text
  rw [hlist, List.length_append, List.length_cons, List.length_append] at hsteps
  rw [hlist, List.append_assoc, List.cons_append, List.append_assoc]
  cases steps with
  | zero => omega
  | succ steps =>
    have hvalue : text.toList.length ≤ steps := by omega
    rw [(readMembers_memberText key h hvalue (endsInteger_comma _)).1 _ (skipSpace_cons rfl _),
      readMembers_skipSpace steps (skipSpace_lineBreak level _), hs.reads (by omega)]
    rfl

theorem SpellsMembers.object {text : String} (h : SpellsMembers ms text) (level : ℕ) :
    Spells (.object ms) ("\x7b" ++ lineBreak level ++ text) := by
  have hlist : ("\x7b" ++ lineBreak level ++ text).toList
      = '\x7b' :: ((lineBreak level).toList ++ text.toList) := by simp
  apply Spells.of_succ hlist rfl (by decide)
  intro steps rest hsteps _
  rw [List.length_append] at hsteps
  have hread : readMembers steps (text.toList ++ rest) = some (ms, rest) := h.reads (by omega)
  obtain ⟨cs, hcs⟩ := h.starts
  rw [List.append_assoc, readValue, skipSpace_cons rfl]
  simp only [skipSpace_lineBreak]
  rw [hcs, List.cons_append] at hread ⊢
  rw [skipSpace_cons rfl]
  split
  · rename_i heq
    exact absurd (List.cons.inj heq).1 (by decide)
  · rw [hread]
    rfl

/-- Printed members and the closing brace, when each value alone is read back. -/
theorem spellsMembers_intercalate {print : Value → String} (inner outer : ℕ) (hms : ms ≠ [])
    (hkeys : ∀ m ∈ ms, m.1.isSome = true) (h : ∀ m ∈ ms, Spells m.2 (print m.2)) :
    SpellsMembers ms
      (("," ++ lineBreak inner).intercalate
          (ms.map fun m => memberText (m.1.getD "") (print m.2))
        ++ (lineBreak outer ++ "\x7d")) := by
  induction ms with
  | nil => exact absurd rfl hms
  | cons m ms ih =>
    obtain ⟨hkey, hothers⟩ := List.forall_mem_cons.mp hkeys
    obtain ⟨hm, hrest⟩ := List.forall_mem_cons.mp h
    -- Without a text a key would be printed like an empty one.
    obtain ⟨_ | key, v⟩ := m
    · cases hkey
    cases ms with
    | nil =>
      rw [List.map_cons, List.map_nil, String.intercalate_singleton]
      exact SpellsMembers.last key hm outer
    | cons k ms =>
      have htail := ih (List.cons_ne_nil k ms) hothers hrest
      simp only [List.map_cons] at htail ⊢
      rw [String.intercalate_cons_cons, String.append_assoc]
      exact SpellsMembers.cons key hm inner htail

theorem spells_object {print : Value → String} (level : ℕ)
    (hkeys : ∀ m ∈ ms, m.1.isSome = true) (h : ∀ m ∈ ms, Spells m.2 (print m.2)) :
    Spells (.object ms)
      (bracketed "\x7b" "\x7d" level
        (ms.map fun m => memberText (m.1.getD "") (print m.2))) := by
  rcases eq_or_ne ms [] with rfl | hms
  · rw [List.map_nil, bracketed_nil]
    exact Spells.of_succ rfl rfl (by decide) fun _ _ _ _ => rfl
  · rw [bracketed_of_ne_nil _ _ _ (by simpa using hms)]
    exact (spellsMembers_intercalate (level + 1) level hms hkeys h).object (level + 1)

/-! ### Whole texts -/

/-- A value built from integers and from strings that have a text. -/
inductive Value.Plain : Value → Prop
  | null : Plain .null
  | bool (b : Bool) : Plain (.bool b)
  | integer (i : ℤ) : Plain (.ofInt i)
  | string (s : String) : Plain (.ofString s)
  | array {items : List Value} (h : ∀ v ∈ items, Plain v) : Plain (.array items)
  | object {members : List (Option String × Value)} (hkeys : ∀ m ∈ members, m.1.isSome = true)
      (h : ∀ m ∈ members, Plain m.2) : Plain (.object members)

theorem pretty_array (level : ℕ) (items : List Value) :
    (Value.array items).pretty level
      = bracketed "[" "]" level (items.map (Value.pretty (level + 1))) := by
  have hitems : prettyItems (level + 1) items = items.map (Value.pretty (level + 1)) := by
    induction items with
    | nil => rfl
    | cons v vs ih => rw [prettyItems, ih]; rfl
  rw [Value.pretty, hitems]

theorem pretty_object (level : ℕ) (members : List (Option String × Value)) :
    (Value.object members).pretty level
      = bracketed "\x7b" "\x7d" level
          (members.map fun m => memberText (m.1.getD "") (m.2.pretty (level + 1))) := by
  have hmembers : prettyMembers (level + 1) members
      = members.map fun m => memberText (m.1.getD "") (m.2.pretty (level + 1)) := by
    induction members with
    | nil => rfl
    | cons m ms ih => rw [prettyMembers, ih]; rfl
  rw [Value.pretty, hmembers]

theorem Value.Plain.spells_pretty (h : v.Plain) : ∀ level, Spells v (v.pretty level) := by
  induction h with
  | null => exact fun _ => spells_null
  | bool b => exact fun _ => spells_bool b
  | integer i => exact fun _ => spells_ofInt i
  | string s => exact fun _ => spells_ofString s
  | array _ ih =>
    intro level
    rw [pretty_array]
    exact spells_array level fun v hv => ih v hv (level + 1)
  | object hkeys _ ih =>
    intro level
    rw [pretty_object]
    exact spells_object level hkeys fun m hm => ih m hm (level + 1)

/-- What is printed of a value is read as that value. -/
theorem Value.Plain.read_pretty (h : v.Plain) (level : ℕ) : read (v.pretty level) = some v := by
  have hsteps : (v.pretty level).toList.length ≤ 2 * (v.pretty level).toList.length + 2 := by omega
  have hends : EndsInteger [] := by rintro c ⟨⟩
  have hreads := (h.spells_pretty level).reads hsteps hends
  rw [List.append_nil] at hreads
  rw [read, hreads]
  rfl

end JustIntonation.Json
