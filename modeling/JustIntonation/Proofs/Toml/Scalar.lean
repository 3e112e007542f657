/-
JustIntonation/Proofs/Toml/Scalar.lean

Numbers as they are read.

A numeral is read as the double nearest to its value (`decimal?_chars`).  What
looks like a number is no word, no date and no time of day
(`scalar?_of_isNumeric`), so it is read as a number and as nothing else.

Main results: a positive finite double is what its text is read as
(`scalar?_format`), and so is a whole number of 64 bits (`scalar?_toDigits`).
-/
import JustIntonation.Proofs.Binary64.Shortest
import JustIntonation.Proofs.Toml.Numeral
import JustIntonation.Toml.Scalar

namespace JustIntonation.Toml

open Text

/-! ### Digits -/

section Reading

variable {cs ds : List Char}

theorem separatedDigits?_of_digits (hne : ds ≠ []) (h : ∀ d ∈ ds, d.isDigit = true) :
    separatedDigits? 10 ds = some ds := by
  induction ds with
  | nil => exact absurd rfl hne
  | cons d ds ih =>
    obtain ⟨hd, hds⟩ := List.forall_mem_cons.mp h
    cases ds with
    | nil => rw [separatedDigits?, if_pos (isDigitOf_of_isDigit hd)]
    | cons e ds =>
      have hseparator : e ≠ '_' := by
        rintro rfl
        cases (List.forall_mem_cons.mp hds).1
      simp only [separatedDigits?, isDigitOf_of_isDigit hd, Bool.not_true, Bool.false_eq_true,
        if_false, hseparator, ih (List.cons_ne_nil e ds) hds, Option.map_some]

theorem wholeDigits?_of_digits (hwhole : IsWhole ds) (h : ∀ d ∈ ds, d.isDigit = true) :
    wholeDigits? ds = some ds := by
  obtain ⟨d, rest, rfl, hzero⟩ := hwhole
  by_cases hd : d = '0'
  · rw [hd, hzero hd]
    rfl
  · rw [wholeDigits?]
    · exact separatedDigits?_of_digits (List.cons_ne_nil d rest) h
    · exact fun heq => hd (List.cons.inj heq).1
    · exact fun _ heq => hd (List.cons.inj heq).1

theorem separatedDigits?_toDigits (n : ℕ) :
    separatedDigits? 10 (Nat.toDigits 10 n) = some (Nat.toDigits 10 n) :=
  separatedDigits?_of_digits Nat.toDigits_ne_nil fun _ => isDigit_of_mem_toDigits

theorem valueOf_toDigits (n : ℕ) : valueOf 10 (Nat.toDigits 10 n) = n := by
  rw [valueOf_eq fun _ => isDigit_of_mem_toDigits, Nat.ofDigitChars_ten_toDigits]

/-- What begins with a digit has no sign. -/
theorem splitSign_of_head? (h : ∀ c ∈ cs.head?, c.isDigit = true) :
    Binary64.splitSign cs = (false, cs) := by
  rw [Binary64.splitSign]
  · rintro r rfl
    cases h _ rfl
  · rintro r rfl
    cases h _ rfl

theorem splitSign_toDigits (n : ℕ) :
    Binary64.splitSign (Nat.toDigits 10 n) = (false, Nat.toDigits 10 n) :=
  splitSign_of_head? fun _ hc => isDigit_of_mem_toDigits (List.mem_of_mem_head? hc)

theorem exponent?_toString (e : ℤ) : exponent? ('e' :: (toString e).toList) = some e := by
  cases e with
  | ofNat n =>
    rw [toList_toString_ofNat, exponent?, splitSign_toDigits]
    simp [separatedDigits?_toDigits, valueOf_toDigits]
  | negSucc n =>
    rw [toList_toString_negSucc, exponent?, Binary64.splitSign]
    simp [separatedDigits?_toDigits, valueOf_toDigits, Int.negSucc_eq]

theorem isSeparatedDigit_of_isDigit {c : Char} (h : c.isDigit = true) :
    isSeparatedDigit c = true := by
  rw [isSeparatedDigit, h, Bool.true_or]

/-- Digits end where a point, an exponent or nothing follows. -/
theorem span_digits {ds rest : List Char} (hds : ∀ d ∈ ds, d.isDigit = true)
    (hrest : ∀ c ∈ rest.head?, c = '.' ∨ c = 'e') :
    (ds ++ rest).takeWhile isSeparatedDigit = ds ∧
      (ds ++ rest).dropWhile isSeparatedDigit = rest := by
  refine takeWhile_append_of_all (fun d hd => isSeparatedDigit_of_isDigit (hds d hd)) ?_
  intro c hc
  rcases hrest c hc with rfl | rfl <;> rfl

theorem exponent?_tail (n : Numeral) : exponent? n.tail = some (n.exponent.getD 0) := by
  rw [Numeral.tail]
  cases n.exponent with
  | none => rfl
  | some e => exact exponent?_toString e

/-- A numeral is read as the double nearest to its value, unless that is past all finite ones. -/
theorem decimal?_chars {n : Numeral} (h : n.Proper) {x : Binary64}
    (hx : Binary64.ofDecimal false (Nat.ofDigitChars 10 n.digits 0) n.place = x)
    (hfinite : x ≠ Binary64.infinity false) : decimal? false n.chars = some x := by
  obtain ⟨hwhole, hfraction⟩ := h.isDigit
  obtain ⟨htake, hdrop⟩ := span_digits hwhole n.head?_rest
  rw [Numeral.digits, ← digitsValue_eq, Numeral.place] at hx
  rw [decimal?, Numeral.chars, htake, hdrop, wholeDigits?_of_digits h.whole hwhole]
  by_cases hnone : n.fraction = []
  · obtain ⟨e, he⟩ := Option.ne_none_iff_exists'.mp (h.noInteger.resolve_left (not_not_intro hnone))
    have htail : n.tail = 'e' :: (toString e).toList := by rw [Numeral.tail, he, Option.elim_some]
    rw [he, hnone, Option.getD_some, List.append_nil, List.length_nil, Nat.cast_zero,
      sub_zero] at hx
    rw [htail, if_pos hnone, List.nil_append]
    simp [exponent?_toString, hx, hfinite, -Int.toString_eq_repr]
  · obtain ⟨htake, hdrop⟩ := span_digits hfraction n.head?_tail
    simp [hnone, htake, hdrop, separatedDigits?_of_digits hnone hfraction, exponent?_tail, hx,
      hfinite]

end Reading

/-! ### Numbers are nothing else -/

section Scalars

variable {cs r r' : List Char} {c : Char}

/-- A mark behind a field of a date stands behind the first digits. -/
theorem head?_dropWhile_of_field? {width low high n : ℕ}
    (hfield : field? width low high cs = some (n, r)) (hskip : skip? c r = some r')
    (hc : c.isDigit = false) : (cs.dropWhile Char.isDigit).head? = some c := by
  simp only [field?] at hfield
  split_ifs at hfield with hdigits
  simp only [Bool.and_eq_true, List.all_eq_true] at hdigits
  obtain ⟨-, rfl⟩ := Prod.mk.inj (Option.some.inj hfield)
  cases hdrop : cs.drop width with
  | nil => simp [hdrop, skip?] at hskip
  | cons d rest =>
    rw [hdrop, skip?] at hskip
    split_ifs at hskip with hd
    have hstop : ∀ e ∈ (d :: rest).head?, e.isDigit = false := by simpa [hd] using hc
    have hsplit := (takeWhile_append_of_all hdigits.1.1.2 hstop).2
    rw [← hdrop, List.take_append_drop, hdrop, hd] at hsplit
    rw [hsplit]
    rfl

theorem isDateTime_of_isNumeric (h : IsNumeric cs) (calendar : Calendar) :
    calendar.isDateTime cs = false := by
  have hdate : skipDate? cs = none := by
    rw [skipDate?]
    cases hfield : field? 4 0 9999 cs with
    | none => rfl
    | some p =>
      cases hskip : skip? '-' p.2 with
      | none => simp [hskip]
      | some r => exact absurd (head?_dropWhile_of_field? hfield hskip rfl) h.mark.1
  have htime : skipTime? calendar.lastHour cs = none := by
    rw [skipTime?]
    cases hfield : field? 2 0 calendar.lastHour cs with
    | none => rfl
    | some p =>
      cases hskip : skip? ':' p.2 with
      | none => simp [hskip]
      | some r => exact absurd (head?_dropWhile_of_field? hfield hskip rfl) h.mark.2
  rw [Calendar.isDateTime, hdate, htime]
  rfl

theorem scalar?_of_isNumeric (h : IsNumeric cs) :
    scalar? cs = ((decimal? false cs).map Value.float).or ((integer? cs).map Value.integer) := by
  obtain ⟨c, r, rfl, hc⟩ := h.head
  have hword : ∀ d, d.isDigit = false → ∀ s, c :: r ≠ d :: s := by
    rintro d hd s heq
    rw [(List.cons.inj heq).1, hd] at hc
    cases hc
  have hsign : Binary64.splitSign (c :: r) = (false, c :: r) :=
    splitSign_of_head? (by simpa using hc)
  rw [scalar?, if_neg (hword 't' rfl _), if_neg (hword 'f' rfl _), isDateTime_of_isNumeric h,
    if_neg Bool.false_ne_true, float?, hsign]
  simp only [hword 'i' rfl, hword 'n' rfl, if_false]

/-! ### Written numbers -/

section Doubles

variable {x : Binary64} (hsign : x.negative = false) (hfinite : x.isFinite = true)
  (hzero : x.isZero = false)
include hsign hfinite hzero

/-- A positive finite double is written as a numeral that is read as this double. -/
theorem exists_numeral_format : ∃ n : Numeral, (x.format Binary64.general).toList = n.chars ∧
    n.Proper ∧ Binary64.ofDecimal false (Nat.ofDigitChars 10 n.digits 0) n.place = x := by
  have hnan : x.isNaN = false := Binary64.isNaN_of_isFinite hfinite
  have hinfinite : x.isInfinite = false := Binary64.isInfinite_of_isFinite hfinite
  have hpos : 0 < x.magnitude := Nat.pos_of_ne_zero (of_decide_eq_false hzero)
  have htext : x.format Binary64.general
      = Binary64.general.digitsText (Binary64.shortest x.magnitude) := by
    simp only [Binary64.format, hsign, hnan, hinfinite, hzero, Bool.false_eq_true, if_false,
      String.empty_append]
  obtain ⟨n, hchars, hproper, hvalue⟩ := exists_numeral (Binary64.reads_shortest hpos).ne_zero
  refine ⟨n, by rw [htext, hchars], hproper, ?_⟩
  exact Binary64.ofDecimal_of_toRat_eq hsign hfinite hzero hvalue

theorem isNumeric_format : IsNumeric (x.format Binary64.general).toList := by
  obtain ⟨n, hchars, hproper, -⟩ := exists_numeral_format hsign hfinite hzero
  rw [hchars]
  exact n.isNumeric hproper

/-- A positive finite double is what its text is read as. -/
theorem scalar?_format : scalar? (x.format Binary64.general).toList = some (.float x) := by
  obtain ⟨n, hchars, hproper, hread⟩ := exists_numeral_format hsign hfinite hzero
  have hbelow : x ≠ Binary64.infinity false := by
    rintro rfl
    exact absurd hfinite (by decide)
  rw [hchars, scalar?_of_isNumeric (n.isNumeric hproper), decimal?_chars hproper hread hbelow]
  rfl

end Doubles

/-- A whole number is what its text is read as. -/
theorem scalar?_toDigits {n : ℕ} (hn : (n : ℤ) ≤ Binary64.maxInt64) :
    scalar? (Nat.toDigits 10 n) = some (.integer n) := by
  have hall : ∀ c ∈ Nat.toDigits 10 n, c.isDigit = true := fun _ => isDigit_of_mem_toDigits
  have hdecimal : decimal? false (Nat.toDigits 10 n) = none := by
    have hstop : ∀ c ∈ ([] : List Char).head?, c = '.' ∨ c = 'e' := nofun
    obtain ⟨htake, hdrop⟩ := span_digits hall hstop
    rw [List.append_nil] at htake hdrop
    rw [decimal?, htake, hdrop]
    cases wholeDigits? (Nat.toDigits 10 n) <;> rfl
  have hinteger : integer? (Nat.toDigits 10 n) = some (n : ℤ) := by
    -- No letter of another base stands behind a leading zero.
    have hbase : ∀ c, c.isDigit = false → ∀ r, Nat.toDigits 10 n ≠ '0' :: c :: r := by
      intro c hc r heq
      rw [hall c (heq ▸ List.mem_cons_of_mem _ List.mem_cons_self)] at hc
      cases hc
    rw [integer?]
    case x => exact hbase 'x' rfl
    case x_1 => exact hbase 'o' rfl
    case x_2 => exact hbase 'b' rfl
    have hmin : Binary64.minInt64 ≤ n := (by decide : Binary64.minInt64 ≤ 0).trans n.cast_nonneg
    rw [splitSign_toDigits]
    simp [wholeDigits?_of_digits (isWhole_toDigits n) hall, valueOf_toDigits, hmin, hn]
  rw [scalar?_of_isNumeric (isNumeric_toDigits n), hdecimal, hinteger]
  rfl

end Scalars

end JustIntonation.Toml
