/-
JustIntonation/Proofs/Score/Bodies.lean

What stands between angle brackets in a score.

A score is read back by a reader that knows no more of the language than its
angle brackets (`bodies`).  Only chords are written with them: names, note
values, annotations and the lines around them hold none, so a text made of
several ones has the bodies of each of them in order (`Encloses`).

Main result: the bodies in a score are the names of its chords' members, from
low to high, once for each tied note value (`chordBodies_of_document`).  A name
is that of a pitch with octave marks, or the rest symbol, and that stands in a
chord exactly if a member of the chord is a rest.
-/
import JustIntonation.Proofs.Except
import JustIntonation.Proofs.Score.Duration
import JustIntonation.Proofs.Score.Spelling
import JustIntonation.Proofs.Text.Numbers
import JustIntonation.Notation.Meaning
import JustIntonation.Score.Document
import Mathlib.Data.Bool.AllAny
import Mathlib.Data.List.TakeWhile

namespace JustIntonation.Score

/-! ### Reading bodies -/

/-- A place in a text: outside of angle brackets, or behind an opening one and the text behind
that. -/
inductive Place where
  | outside
  | inside (body : List Char)
deriving DecidableEq

/-- What a character closes, and the place behind it.  `<<` is a sign of its own, as is `>>`:
they stand around what sounds together. -/
def Place.step : Place → Char → List (List Char) × Place
  | .outside, c => if c = '<' then ([], .inside []) else ([], .outside)
  | .inside body, c =>
    if c = '<' then ([], if body = [] then .outside else .inside [])
    else if c = '>' then ([body], .outside)
    else ([], .inside (body ++ [c]))

/-- The bodies that some text closes, and the place behind it. -/
def readBodies : Place → List Char → List (List Char) × Place
  | place, [] => ([], place)
  | place, c :: cs =>
    let (closed, next) := place.step c
    let (others, last) := readBodies next cs
    (closed ++ others, last)

/-- The texts between angle brackets, in their order. -/
def bodies (text : String) : List (List Char) := (readBodies .outside text.toList).1

/-- The words of each chord in a text. -/
def chordBodies (text : String) : List (List String) :=
  (bodies text).map fun body => (body.splitOn ' ').map String.ofList

theorem readBodies_append (place : Place) (cs ds : List Char) :
    readBodies place (cs ++ ds) = ((readBodies place cs).1 ++
      (readBodies (readBodies place cs).2 ds).1, (readBodies (readBodies place cs).2 ds).2) := by
  induction cs generalizing place with
  | nil => rfl
  | cons c cs ih => simp only [List.cons_append, readBodies, ih, List.append_assoc]

/-- A text without angle brackets. -/
def Unbracketed (cs : List Char) : Prop := ∀ c ∈ cs, c ≠ '<' ∧ c ≠ '>'

theorem readBodies_outside {cs : List Char} (h : Unbracketed cs) :
    readBodies .outside cs = ([], .outside) := by
  induction cs with
  | nil => rfl
  | cons c cs ih =>
    obtain ⟨⟨hopen, -⟩, hcs⟩ := List.forall_mem_cons.mp h
    simp only [readBodies, Place.step, if_neg hopen, ih hcs, List.append_nil]

theorem readBodies_inside {cs : List Char} (h : Unbracketed cs) (body : List Char) :
    readBodies (.inside body) cs = ([], .inside (body ++ cs)) := by
  induction cs generalizing body with
  | nil => rw [readBodies, List.append_nil]
  | cons c cs ih =>
    obtain ⟨⟨hopen, hclose⟩, hcs⟩ := List.forall_mem_cons.mp h
    simp only [readBodies, Place.step, if_neg hopen, if_neg hclose, ih hcs, List.nil_append,
      List.append_assoc, List.singleton_append]

/-! ### Texts and their bodies -/

/-- A text with no bracket left open, and its bodies. -/
def Encloses (s : String) (bs : List (List Char)) : Prop :=
  readBodies .outside s.toList = (bs, .outside)

/-- A string without angle brackets. -/
def Plain (s : String) : Prop := Unbracketed s.toList

instance (cs : List Char) : Decidable (Unbracketed cs) := List.decidableBAll _ cs

instance (s : String) (bs : List (List Char)) : Decidable (Encloses s bs) :=
  inferInstanceAs (Decidable (_ = _))

instance (s : String) : Decidable (Plain s) := inferInstanceAs (Decidable (Unbracketed s.toList))

section Texts

variable {s t : String} {bs bs' : List (List Char)}

theorem Plain.append (hs : Plain s) (ht : Plain t) : Plain (s ++ t) := by
  rw [Plain, String.toList_append]
  exact List.forall_mem_append.mpr ⟨hs, ht⟩

theorem Plain.encloses (h : Plain s) : Encloses s [] := readBodies_outside h

theorem Encloses.append (hs : Encloses s bs) (ht : Encloses t bs') :
    Encloses (s ++ t) (bs ++ bs') := by
  rw [Encloses] at hs ht
  rw [Encloses, String.toList_append, readBodies_append, hs, ht]

theorem Encloses.bodies_eq (h : Encloses s bs) : bodies s = bs := by rw [bodies, h]

/-- A body in angle brackets. -/
theorem Plain.encloses_brackets (h : Plain s) : Encloses ("<" ++ s ++ ">") [s.toList] := by
  rw [Encloses, String.toList_append, String.toList_append, readBodies_append, readBodies_append]
  have hopen : readBodies .outside "<".toList = ([], .inside []) := by decide
  rw [hopen, readBodies_inside h, List.nil_append]
  rfl

/-- Texts with no bracket left open, and the bodies of all of them in order. -/
inductive EncloseAll : List String → List (List Char) → Prop
  | nil : EncloseAll [] []
  | cons {s ss bs bs'} (first : Encloses s bs) (rest : EncloseAll ss bs') :
      EncloseAll (s :: ss) (bs ++ bs')

theorem Encloses.single (h : Encloses s bs) : EncloseAll [s] bs := by
  rw [← List.append_nil bs]
  exact .cons h .nil

theorem EncloseAll.append {ss ts : List String} (h : EncloseAll ss bs) (h' : EncloseAll ts bs') :
    EncloseAll (ss ++ ts) (bs ++ bs') := by
  induction h with
  | nil => exact h'
  | cons first _ ih =>
    rw [List.cons_append, List.append_assoc]
    exact .cons first ih

/-- Of things that are each written as a text, the texts have the bodies of the things. -/
theorem EncloseAll.of_forall₂ {α : Type} {xs : List α} {ss : List String}
    {g : α → List (List Char)} (h : List.Forall₂ (fun x s => Encloses s (g x)) xs ss) :
    EncloseAll ss (xs.flatMap g) := by
  induction h with
  | nil => exact .nil
  | cons first _ ih => exact .cons first ih

theorem EncloseAll.of_none {ss : List String} (h : ∀ s ∈ ss, Encloses s []) :
    EncloseAll ss [] := by
  induction ss with
  | nil => exact .nil
  | cons s ss ih =>
    obtain ⟨hs, hss⟩ := List.forall_mem_cons.mp h
    exact .cons hs (ih hss)

/-- Texts that are left out because they are empty have no bodies. -/
theorem EncloseAll.filter {ss : List String} (h : EncloseAll ss bs) :
    EncloseAll (ss.filter (!·.isEmpty)) bs := by
  induction h with
  | nil => exact .nil
  | @cons s ss bs bs' first _ ih =>
    cases hempty : s.isEmpty with
    | true =>
      obtain rfl := String.isEmpty_iff.mp hempty
      obtain ⟨rfl, -⟩ := Prod.mk.inj first
      exact ih
    | false =>
      rw [List.filter_cons_of_pos (by simp [hempty])]
      exact .cons first ih

/-- What stands before each text has no bodies. -/
theorem EncloseAll.map_append {ss : List String} (ht : Plain t) (h : EncloseAll ss bs) :
    EncloseAll (ss.map (t ++ ·)) bs := by
  induction h with
  | nil => exact .nil
  | cons first _ ih => exact .cons (ht.encloses.append first) ih

/-- Texts that are joined have the bodies of each. -/
theorem EncloseAll.intercalate {sep : String} (hsep : Plain sep) {ss : List String}
    (h : EncloseAll ss bs) : Encloses (sep.intercalate ss) bs := by
  induction h with
  | nil => exact rfl
  | cons first rest ih =>
    cases rest with
    | nil =>
      rw [String.intercalate_singleton, List.append_nil]
      exact first
    | cons second others =>
      rw [String.intercalate_cons_cons]
      have hboth := (first.append hsep.encloses).append ih
      rwa [List.append_nil] at hboth

theorem unbracketed_of_isBlank {cs : List Char} (h : ∀ c ∈ cs, Text.isBlank c = true) :
    Unbracketed cs := by
  intro c hc
  constructor
  · rintro rfl
    exact absurd (h _ hc) (by decide)
  · rintro rfl
    exact absurd (h _ hc) (by decide)

/-- A text is blanks, what is left of it without them, and blanks again. -/
theorem exists_trim (s : String) : ∃ front back : List Char,
    (∀ c ∈ front, Text.isBlank c = true) ∧ (∀ c ∈ back, Text.isBlank c = true) ∧
    s.toList = front ++ (Text.trim s).toList ++ back := by
  rw [Text.trim, String.toList_ofList]
  have hfront := List.takeWhile_append_dropWhile (p := Text.isBlank) (l := s.toList)
  generalize hcs : s.toList.dropWhile Text.isBlank = cs at hfront ⊢
  refine ⟨s.toList.takeWhile Text.isBlank, (cs.reverse.takeWhile Text.isBlank).reverse,
    fun c hc => List.mem_takeWhile_imp hc,
    fun c hc => List.mem_takeWhile_imp (List.mem_reverse.mp hc), ?_⟩
  rw [List.append_assoc, ← List.reverse_append, List.takeWhile_append_dropWhile,
    List.reverse_reverse, hfront]

/-- Blanks at the ends of a text hold no bodies. -/
theorem Encloses.trim (h : Encloses s bs) : Encloses (Text.trim s) bs := by
  obtain ⟨front, back, hfront, hback, hs⟩ := exists_trim s
  rw [Encloses, hs, readBodies_append, readBodies_append,
    readBodies_outside (unbracketed_of_isBlank hfront), List.nil_append] at h
  -- A bracket that is open in front of the blanks at the end would be open behind them.
  rcases hread : readBodies .outside (Text.trim s).toList with ⟨bs', place⟩
  rw [hread] at h
  cases place with
  | outside =>
    rw [readBodies_outside (unbracketed_of_isBlank hback), List.append_nil] at h
    rw [Encloses, hread]
    exact h
  | inside body =>
    rw [readBodies_inside (unbracketed_of_isBlank hback)] at h
    cases h

end Texts

/-! ### Names -/

/-- The names of pitches: one that divides the octave, and a mark for each octave. -/
def Spelling.IsName (s : Spelling) (word : String) : Prop :=
  ∃ name ∈ s.names, ∃ count, ∃ mark ∈ ['\'', ','],
    word.toList = name.toList ++ List.replicate count mark

theorem isName_nameOf (s : Spelling) (steps : ℤ) : s.IsName (s.nameOf steps) := by
  obtain ⟨name, index, hname, -, htext⟩ := s.exists_nameOf steps
  refine ⟨name, List.mem_of_getElem? hname, (steps / s.size + 1).natAbs,
    if 0 < steps / s.size + 1 then '\'' else ',', ?_, htext⟩
  split_ifs <;> decide

theorem isName_spell {f0 : Binary64} {s : Spelling} {n : Note} (h : n.isRest = false) :
    s.IsName (spell f0 s n) := by
  rw [spell_of_sounding h]
  exact isName_nameOf s _

theorem spell_of_isRest {f0 : Binary64} {s : Spelling} {n : Note} (h : n.isRest = true) :
    spell f0 s n = restName := if_pos h

/-- The rest symbol names no pitch. -/
theorem not_isName_restName (s : Spelling) : ¬ s.IsName restName := by
  rintro ⟨name, hname, count, mark, -, hword⟩
  have hhead : ∀ name ∈ s.names, name.toList.head?.any (· ≠ 'r') = true := by
    cases s <;> decide
  have hfirst := hhead name hname
  cases hletters : name.toList with
  | nil =>
    rw [hletters] at hfirst
    cases hfirst
  | cons x letters =>
    rw [hletters] at hfirst hword
    obtain ⟨rfl, -⟩ := List.cons.inj hword
    cases hfirst

/-- The letters of names, and the marks. -/
def nameLetters : List Char := "abcdefgsr',".toList

theorem subset_nameLetters_of_isName {s : Spelling} {word : String} (h : s.IsName word) :
    word.toList ⊆ nameLetters := by
  obtain ⟨name, hname, count, mark, hmark, hword⟩ := h
  have hletters : ∀ name ∈ s.names, name.toList ⊆ nameLetters := by
    cases s <;> decide
  have hmarks : ['\'', ','] ⊆ nameLetters := by decide
  rw [hword]
  refine List.append_subset.mpr ⟨hletters name hname, fun c hc => ?_⟩
  rw [List.eq_of_mem_replicate hc]
  exact hmarks hmark

theorem spell_subset_nameLetters (f0 : Binary64) (s : Spelling) (n : Note) :
    (spell f0 s n).toList ⊆ nameLetters := by
  cases h : n.isRest with
  | true =>
    rw [spell_of_isRest h]
    decide
  | false => exact subset_nameLetters_of_isName (isName_spell h)

theorem plain_spell (f0 : Binary64) (s : Spelling) (n : Note) : Plain (spell f0 s n) := by
  have hletters : Unbracketed nameLetters := by decide
  exact fun c hc => hletters c (spell_subset_nameLetters f0 s n hc)

/-! ### Annotations -/

/-- A text of digits and the signs of numbers. -/
def Numeric (s : String) : Prop := ∀ c ∈ s.toList, c.isDigit = true ∨ c ∈ ['-', '+', '/']

theorem numeric_int (n : ℤ) : Numeric (toString n) := by
  intro c hc
  refine (Text.isDigit_or_of_mem_toString hc).imp_right ?_
  rintro rfl
  exact List.mem_cons_self

theorem numeric_nat (n : ℕ) : Numeric (toString n) := numeric_int (Int.ofNat n)

theorem Numeric.append {s t : String} (hs : Numeric s) (ht : Numeric t) : Numeric (s ++ t) := by
  rw [Numeric, String.toList_append]
  exact List.forall_mem_append.mpr ⟨hs, ht⟩

theorem numeric_rationalText (q : ℚ) : Numeric (rationalText q) := by
  have hstroke : Numeric "/" := List.forall_mem_singleton.mpr (.inr (by decide))
  rw [rationalText]
  split_ifs
  · exact numeric_int q.num
  · exact ((numeric_int q.num).append hstroke).append (numeric_nat q.den)

/-- A deviation is digits with a sign. -/
theorem numeric_centDeviation {divisions : ℕ} {n : Note} {s : String}
    (h : centDeviation divisions n = .ok s) : Numeric s := by
  rw [centDeviation] at h
  cases hcents : n.cents with
  | none =>
    rw [hcents] at h
    obtain rfl := pure_eq_ok.mp h
    exact nofun
  | some cents =>
    rw [hcents] at h
    obtain ⟨tempered, -, h⟩ := bind_eq_ok.mp h
    obtain rfl := pure_eq_ok.mp h
    refine Numeric.append ?_ (numeric_int _)
    split_ifs
    · exact nofun
    · exact List.forall_mem_singleton.mpr (.inr (by decide))

/-- The characters of annotations. -/
def IsRemarkChar (c : Char) : Prop := c.isDigit = true ∨ c ∈ "+-/ $()\"acenorist".toList

instance (c : Char) : Decidable (IsRemarkChar c) := inferInstanceAs (Decidable (_ ∨ _))

theorem Numeric.isRemarkChar {s : String} (h : Numeric s) : ∀ c ∈ s.toList, IsRemarkChar c := by
  have hsigns : ['-', '+', '/'] ⊆ "+-/ $()\"acenorist".toList := by decide
  exact fun c hc => (h c hc).imp_right fun hsign => hsigns hsign

/-- The names and marks of annotations. -/
theorem isRemarkChar_literal : ∀ s ∈ ["cents", "ratios", "$(", ")", "\"", " "],
    ∀ c ∈ s.toList, IsRemarkChar c := by
  simp only [← List.all_iff_forall_prop]
  decide

theorem isRemarkChar_call {name : String} (hname : ∀ c ∈ name.toList, IsRemarkChar c)
    {arguments : List String} (h : ∀ s ∈ arguments, Numeric s) :
    ∀ c ∈ (call name arguments).toList, IsRemarkChar c := by
  have hquote := isRemarkChar_literal "\"" (by decide)
  have hspace := isRemarkChar_literal " " (by decide)
  have hopen := isRemarkChar_literal "$(" (by decide)
  have hclose := isRemarkChar_literal ")" (by decide)
  have hquoted : ∀ s ∈ arguments.map doubleQuoted, ∀ c ∈ s.toList, IsRemarkChar c := by
    rw [List.forall_mem_map]
    intro s hs
    simp only [doubleQuoted, String.toList_append, List.forall_mem_append]
    exact ⟨⟨hquote, (h s hs).isRemarkChar⟩, hquote⟩
  simp only [call, String.toList_append, List.forall_mem_append]
  exact ⟨⟨⟨⟨hopen, hname⟩, hspace⟩, Text.forall_mem_intercalate hspace hquoted⟩, hclose⟩

theorem isRemarkChar_remark {deviations : List String} (h : ∀ s ∈ deviations, Numeric s)
    (ratios : Option (ℚ × List ℚ)) :
    ∀ c ∈ (remark deviations ratios).toList, IsRemarkChar c := by
  have hspace := isRemarkChar_literal " " (by decide)
  have hcents := isRemarkChar_call (isRemarkChar_literal "cents" (by decide)) h
  simp only [remark, String.toList_append, List.forall_mem_append]
  refine ⟨⟨⟨⟨hspace, hcents⟩, hspace⟩, ?_⟩, hspace⟩
  obtain - | ⟨base, others⟩ := ratios
  · exact nofun
  · apply isRemarkChar_call (isRemarkChar_literal "ratios" (by decide))
    rw [List.forall_mem_cons, List.forall_mem_map]
    exact ⟨numeric_rationalText base, fun q _ => numeric_rationalText q⟩

theorem plain_of_isRemarkChar {s : String} (h : ∀ c ∈ s.toList, IsRemarkChar c) : Plain s := by
  intro c hc
  constructor
  · rintro rfl
    exact absurd (h _ hc) (by decide)
  · rintro rfl
    exact absurd (h _ hc) (by decide)

theorem plain_nat (n : ℕ) : Plain (toString n) :=
  plain_of_isRemarkChar (numeric_nat n).isRemarkChar

theorem plain_remark {deviations : List String} (h : ∀ s ∈ deviations, Numeric s)
    (ratios : Option (ℚ × List ℚ)) : Plain (remark deviations ratios) :=
  plain_of_isRemarkChar (isRemarkChar_remark h ratios)

/-! ### Events -/

theorem noteValues_ne_nil {q : Quantity} {t : Template} (h : Template.ofDuration q = .ok t) :
    t.noteValues ≠ [] := by
  obtain ⟨d, -, ht⟩ := ofDuration_eq_ok.mp h
  obtain ⟨odd, scale, hrescaled⟩ := exists_rescaled d
  obtain ⟨hpos, -⟩ := (ofBeats_eq_some hrescaled).mp ht
  have htotal := (writes_of_ofBeats hrescaled ht).total
  intro hnone
  rw [hnone, totalBeats_nil] at htotal
  have hodd : (0 : ℚ) < odd := by exact_mod_cast hrescaled.isOdd.pos
  have hscale : (0 : ℚ) < scale := by exact_mod_cast hrescaled.scale_pos
  have hvalue : 0 < d * odd / scale := by positivity
  exact hvalue.ne htotal

/-- What stands in front of tied note values: the opening of the tuplet if there is one. -/
def Template.opening (t : Template) : String :=
  match t.tuplet with
  | some (odd, scale) => "\\tuplet " ++ toString odd ++ "/" ++ toString scale ++ " \x7b"
  | none => ""

/-- What stands behind them. -/
def Template.closing (t : Template) : String :=
  match t.tuplet with
  | some _ => "\x7d"
  | none => ""

/-- The remark stands behind the first note value and its tie. -/
theorem render_eq (tie pitch remark : String) {t : Template} {v : ℕ} {vs : List ℕ}
    (h : t.noteValues = v :: vs) : t.render tie pitch remark =
      t.opening ++ (pitch ++ toString v ++ (if vs = [] then "" else tie)) ++ remark
        ++ tie.intercalate (vs.map fun v => pitch ++ toString v) ++ t.closing := by
  have hbody : Template.render tie pitch remark ⟨v :: vs, none⟩
      = pitch ++ toString v ++ (if vs = [] then "" else tie) ++ remark
        ++ tie.intercalate (vs.map fun v => pitch ++ toString v) := by
    cases vs with
    | nil =>
      rw [if_pos rfl, List.map_nil, String.intercalate_nil, String.append_empty,
        String.append_empty]
      rfl
    | cons w ws =>
      rw [if_neg (List.cons_ne_nil w ws)]
      rfl
  obtain ⟨values, - | ⟨odd, scale⟩⟩ := t
  · obtain rfl : values = v :: vs := h
    rw [hbody]
    simp only [Template.opening, Template.closing, String.empty_append, String.append_empty]
  · obtain rfl : values = v :: vs := h
    show Template.opening ⟨v :: vs, some (odd, scale)⟩
      ++ Template.render tie pitch remark ⟨v :: vs, none⟩ ++ "\x7d" = _
    rw [hbody]
    simp only [String.append_assoc]
    rfl

theorem plain_opening (t : Template) : Plain t.opening := by
  obtain ⟨values, - | ⟨odd, scale⟩⟩ := t
  · exact nofun
  · exact ((((by decide : Plain "\\tuplet ").append (plain_nat odd)).append (by decide)).append
      (plain_nat scale)).append (by decide)

theorem plain_closing (t : Template) : Plain t.closing := by
  obtain ⟨values, - | _⟩ := t
  · exact nofun
  · exact (by decide : Plain "\x7d")

/-- A pitch that is repeated in a template is written once for each tied note value. -/
theorem encloses_render {tie pitch remark : String} {bs : List (List Char)} (htie : Plain tie)
    (hpitch : Encloses pitch bs) (hremark : Plain remark) {t : Template} (h : t.noteValues ≠ []) :
    Encloses (t.render tie pitch remark) (t.noteValues.flatMap fun _ => bs) := by
  obtain ⟨v, vs, hvalues⟩ := List.exists_cons_of_ne_nil h
  have hnote : ∀ v : ℕ, Encloses (pitch ++ toString v) bs := by
    intro v
    have hvalue := hpitch.append (plain_nat v).encloses
    rwa [List.append_nil] at hvalue
  have hfirst : Plain (if vs = [] then "" else tie) := by
    split_ifs
    · exact nofun
    · exact htie
  have hothers : EncloseAll (vs.map fun v => pitch ++ toString v) (vs.flatMap fun _ => bs) := by
    apply EncloseAll.of_forall₂
    rw [List.forall₂_map_right_iff, List.forall₂_same]
    exact fun v _ => hnote v
  have hall := ((((plain_opening t).encloses.append ((hnote v).append hfirst.encloses)).append
    hremark.encloses).append (hothers.intercalate htie)).append (plain_closing t).encloses
  rw [render_eq tie pitch remark hvalues, hvalues, List.flatMap_cons]
  rwa [List.append_nil, List.append_nil, List.append_nil, List.nil_append] at hall

theorem encloses_note {options : Options} {n : Note} {s : String} (h : note options n = .ok s) :
    Encloses s [] := by
  have hnone : ∀ t : Template, (t.noteValues.flatMap fun _ => ([] : List (List Char))) = [] :=
    fun t => by simp
  obtain ⟨template, htemplate, h⟩ := bind_eq_ok.mp h
  have hvalues := noteValues_ne_nil htemplate
  split_ifs at h with hrest
  · obtain rfl := pure_eq_ok.mp h
    rw [← hnone template]
    have hname : Plain restName := by decide
    exact encloses_render (by decide) hname.encloses (by decide) hvalues
  · obtain ⟨deviation, hdeviation, h⟩ := bind_eq_ok.mp h
    obtain rfl := pure_eq_ok.mp h
    rw [← hnone template]
    apply Encloses.trim
    apply encloses_render (by decide) (plain_spell _ _ _).encloses
    · exact plain_remark (List.forall_mem_singleton.mpr (numeric_centDeviation hdeviation)) _
    · exact hvalues

/-- The names of a chord's members, from low to high. -/
def memberNames (options : Options) (notes : List Note) : List String :=
  (ascending notes).map (spell options.f0 options.spelling)

/-- The chords in the text of an event: for every tied note value of a chord the names of its
members.  An empty chord is not written. -/
def writtenChords (options : Options) : Event → List (List String)
  | .note _ => []
  | .chord [] => []
  | .chord (first :: rest) =>
    match Template.ofDuration first.duration with
    | .ok template => List.replicate template.noteValues.length (memberNames options (first :: rest))
    | .error _ => []

/-- The bodies of chords that are written. -/
def bodiesOf (chords : List (List String)) : List (List Char) :=
  chords.map fun names => (" ".intercalate names).toList

theorem encloses_event {options : Options} {e : Event} {s : String} (h : event options e = .ok s) :
    Encloses s (bodiesOf (writtenChords options e)) := by
  cases e with
  | note n => exact encloses_note h
  | chord notes =>
    cases notes with
    | nil =>
      obtain rfl := pure_eq_ok.mp h
      exact rfl
    | cons first rest =>
      obtain ⟨template, htemplate, h⟩ := bind_eq_ok.mp h
      obtain ⟨deviations, hdeviations, h⟩ := bind_eq_ok.mp h
      obtain rfl := pure_eq_ok.mp h
      have hspelled : ∀ s ∈ memberNames options (first :: rest), Plain s := by
        rw [memberNames, List.forall_mem_map]
        exact fun n _ => plain_spell _ _ n
      have hnames : Plain (" ".intercalate (memberNames options (first :: rest))) :=
        Text.forall_mem_intercalate (by decide : Plain " ") hspelled
      have hremark : ∀ s ∈ deviations, Numeric s := by
        intro s hs
        obtain ⟨n, -, hn⟩ := exists_of_mem_of_mapM_eq_ok hdeviations hs
        exact numeric_centDeviation hn
      have hcopies : (template.noteValues.flatMap fun _ =>
          [(" ".intercalate (memberNames options (first :: rest))).toList])
          = List.replicate template.noteValues.length
            (" ".intercalate (memberNames options (first :: rest))).toList := by
        rw [← List.map_eq_flatMap, List.map_const']
      have htie : Plain "~" := by decide
      simp only [bodiesOf, writtenChords, htemplate, List.map_replicate]
      rw [← hcopies]
      apply Encloses.trim
      exact encloses_render htie hnames.encloses_brackets (plain_remark hremark _)
        (noteValues_ne_nil htemplate)

/-! ### Staves and scores -/

theorem plain_indentation (level : ℕ) : Plain (indentation level) := by
  intro c hc
  rw [indentation, String.toList_ofList] at hc
  rw [List.eq_of_mem_replicate hc]
  decide

/-- The chords in the text of a part. -/
def writtenInPart (options : Options) (p : Part) : List (List String) :=
  p.events.flatMap (writtenChords options)

theorem encloses_staff {options : Options} {level : ℕ} {p : Part} {s : String}
    (h : staff options level p = .ok s) : Encloses s (bodiesOf (writtenInPart options p)) := by
  obtain ⟨lines, hlines, h⟩ := bind_eq_ok.mp h
  obtain rfl := pure_eq_ok.mp h
  obtain ⟨events, hevents, hlines⟩ := bind_eq_ok.mp hlines
  obtain rfl := pure_eq_ok.mp hlines
  have hclef : EncloseAll (if usesBassClef p then ["\\clef bass"] else []) [] := by
    apply EncloseAll.of_none
    split_ifs
    · exact List.forall_mem_singleton.mpr (Plain.encloses (by decide))
    · exact nofun
  have hwritten : EncloseAll (events.filter (!·.isEmpty)) (bodiesOf (writtenInPart options p)) := by
    rw [bodiesOf, writtenInPart, List.map_flatMap]
    exact (EncloseAll.of_forall₂ ((mapM_eq_ok.mp hevents).imp fun _ _ => encloses_event)).filter
  have hbody := (hclef.append hwritten).map_append (plain_indentation (level + 1))
  have hopen : Plain (indentation level ++ "\\new Staff\x7b") :=
    (plain_indentation level).append (by decide)
  have hclose : Plain (indentation level ++ "\x7d") :=
    (plain_indentation level).append (by decide)
  have hall := ((hopen.encloses.single.append hbody).append hclose.encloses.single).intercalate
    (by decide : Plain "\n")
  rw [List.append_nil, List.nil_append, List.nil_append] at hall
  exact hall

/-- The chords in the text of a piece. -/
def writtenInPiece (options : Options) (piece : Piece) : List (List String) :=
  piece.parts.flatMap (writtenInPart options)

theorem encloses_document {options : Options} {piece : Piece} {s : String}
    (h : document options piece = .ok s) :
    Encloses s (bodiesOf (writtenInPiece options piece)) := by
  obtain ⟨staves, hstaves, h⟩ := bind_eq_ok.mp h
  obtain rfl := pure_eq_ok.mp h
  have hopening : EncloseAll opening [] :=
    .of_none (by decide +kernel)
  have hclosing : EncloseAll closing [] := .of_none (by decide +kernel)
  have hwritten : EncloseAll staves (bodiesOf (writtenInPiece options piece)) := by
    rw [bodiesOf, writtenInPiece, List.map_flatMap]
    exact .of_forall₂ ((mapM_eq_ok.mp hstaves).imp fun _ _ => encloses_staff)
  have hall := ((hopening.append hwritten).append hclosing).intercalate
    (by decide : Plain "\n")
  rw [List.append_nil, List.nil_append] at hall
  exact hall

/-! ### The chords of a score -/

section Written

variable {options : Options} {piece : Piece} {names : List String} {notes : List Note} {p : Part}

theorem exists_of_mem_writtenInPiece (h : names ∈ writtenInPiece options piece) :
    ∃ p ∈ piece.parts, ∃ notes, Event.chord notes ∈ p.events ∧ notes ≠ [] ∧
      names = memberNames options notes := by
  obtain ⟨p, hp, h⟩ := List.mem_flatMap.mp h
  obtain ⟨e, he, h⟩ := List.mem_flatMap.mp h
  obtain n | ⟨- | ⟨first, rest⟩⟩ := e
  · cases h
  · cases h
  · refine ⟨p, hp, _, he, List.cons_ne_nil _ _, ?_⟩
    cases ht : Template.ofDuration first.duration with
    | error f => simp [writtenChords, ht] at h
    | ok t =>
      simp only [writtenChords, ht] at h
      exact List.eq_of_mem_replicate h

/-- Every chord of a piece that could be written is in its score, if it is not empty. -/
theorem mem_writtenInPiece {text : String} (h : document options piece = .ok text)
    (hp : p ∈ piece.parts) (he : Event.chord notes ∈ p.events) (hne : notes ≠ []) :
    memberNames options notes ∈ writtenInPiece options piece := by
  obtain ⟨first, rest, rfl⟩ := List.exists_cons_of_ne_nil hne
  refine List.mem_flatMap.mpr ⟨p, hp, List.mem_flatMap.mpr ⟨_, he, ?_⟩⟩
  obtain ⟨staves, hstaves, -⟩ := bind_eq_ok.mp h
  obtain ⟨s, -, hstaff⟩ := exists_of_mem_of_forall₂ (mapM_eq_ok.mp hstaves).flip hp
  obtain ⟨lines, hlines, -⟩ := bind_eq_ok.mp hstaff
  obtain ⟨events, hevents, -⟩ := bind_eq_ok.mp hlines
  obtain ⟨s', -, hchord⟩ := exists_of_mem_of_forall₂ (mapM_eq_ok.mp hevents).flip he
  obtain ⟨t, ht, -⟩ := bind_eq_ok.mp hchord
  simp only [writtenChords, ht]
  refine List.mem_replicate.mpr ⟨?_, rfl⟩
  exact fun hlength => noteValues_ne_nil ht (List.eq_nil_of_length_eq_zero hlength)

/-- The words of bodies are the names that were written. -/
theorem words_bodiesOf {chords : List (List String)}
    (h : ∀ names ∈ chords, names ≠ [] ∧ ∀ word ∈ names, ' ' ∉ word.toList) :
    (bodiesOf chords).map (fun body => (body.splitOn ' ').map String.ofList) = chords := by
  rw [bodiesOf, List.map_map]
  conv_rhs => rw [← List.map_id chords]
  apply List.map_congr_left
  intro names hnames
  obtain ⟨hne, hwords⟩ := h names hnames
  have hsplit : (" ".intercalate names).toList.splitOn ' ' = names.map String.toList := by
    rw [String.toList_intercalate]
    apply List.splitOn_intercalate
    · rw [List.forall_mem_map]
      exact hwords
    · rwa [ne_eq, List.map_eq_nil_iff]
  show ((" ".intercalate names).toList.splitOn ' ').map String.ofList = names
  rw [hsplit]
  simp [Function.comp_def]

/-- The members of a chord have names, and there are no blanks in these. -/
theorem memberNames_words (options : Options) {notes : List Note} (hne : notes ≠ []) :
    memberNames options notes ≠ [] ∧ ∀ word ∈ memberNames options notes, ' ' ∉ word.toList := by
  constructor
  · obtain ⟨n, hn⟩ := List.exists_mem_of_ne_nil notes hne
    exact List.ne_nil_of_mem (List.mem_map_of_mem (List.mem_mergeSort.mpr hn))
  · rw [memberNames, List.forall_mem_map]
    have hspace : ' ' ∉ nameLetters := by decide
    exact fun n _ hmem => hspace (spell_subset_nameLetters _ _ n hmem)

/-- In a score the bodies of chords are the names of the members of the piece's chords, in order;
each name is that of a pitch or the rest symbol; and the rest symbol stands in a chord exactly if a
chord of the piece has a rest among its members. -/
theorem chordBodies_of_document {text : String} (h : document options piece = .ok text) :
    chordBodies text = writtenInPiece options piece ∧
    (∀ names ∈ chordBodies text, ∀ word ∈ names,
      word = restName ∨ options.spelling.IsName word) ∧
    ((∃ names ∈ chordBodies text, restName ∈ names) ↔
      ∃ p ∈ piece.parts, ∃ notes, Event.chord notes ∈ p.events ∧
        ∃ n ∈ notes, n.isRest = true) := by
  have hwords : chordBodies text = writtenInPiece options piece := by
    rw [chordBodies, (encloses_document h).bodies_eq]
    apply words_bodiesOf
    intro names hnames
    obtain ⟨p, -, notes, -, hne, rfl⟩ := exists_of_mem_writtenInPiece hnames
    exact memberNames_words options hne
  rw [hwords]
  refine ⟨rfl, ?_, ?_⟩
  · intro names hnames word hword
    obtain ⟨p, -, notes, -, -, rfl⟩ := exists_of_mem_writtenInPiece hnames
    obtain ⟨n, -, rfl⟩ := List.mem_map.mp hword
    cases hrest : n.isRest with
    | true => exact .inl (spell_of_isRest hrest)
    | false => exact .inr (isName_spell hrest)
  · constructor
    · rintro ⟨names, hnames, hword⟩
      obtain ⟨p, hp, notes, he, -, rfl⟩ := exists_of_mem_writtenInPiece hnames
      obtain ⟨n, hn, hspell⟩ := List.mem_map.mp hword
      refine ⟨p, hp, notes, he, n, List.mem_mergeSort.mp hn, ?_⟩
      by_contra hsounds
      apply not_isName_restName options.spelling
      rw [← hspell]
      exact isName_spell (Bool.eq_false_of_not_eq_true hsounds)
    · rintro ⟨p, hp, notes, he, n, hn, hrest⟩
      refine ⟨_, mem_writtenInPiece h hp he (List.ne_nil_of_mem hn), ?_⟩
      exact List.mem_map.mpr ⟨n, List.mem_mergeSort.mpr hn, spell_of_isRest hrest⟩

end Written

/-- A piece of which every event can be written can be written. -/
theorem exists_document {options : Options} {piece : Piece}
    (h : ∀ p ∈ piece.parts, ∀ e ∈ p.events, ∃ s, event options e = .ok s) :
    ∃ text, document options piece = .ok text := by
  refine exists_bind_pure.mpr (exists_mapM_eq_ok fun p hp => ?_)
  refine exists_bind_pure.mpr ?_
  exact exists_bind_pure.mpr (exists_mapM_eq_ok (h p hp))

/-- A rest and a note. -/
def restAndNote : List Note :=
  let ratio (n : ℤ) : Quantity := .product ⟨[.ofInt n]⟩
  [⟨ratio 0, ratio 1, .one⟩, ⟨ratio 1, ratio 1, .one⟩]

theorem parse_restAndNote : Piece.parse "<0 1>:1" = .ok ⟨[⟨[.chord restAndNote]⟩]⟩ :=
  eq_ok_of_toOption (by decide +kernel)

theorem ascending_restAndNote : ascending restAndNote = restAndNote :=
  List.mergeSort_of_pairwise (by decide +kernel)

theorem exists_document_restAndNote :
    ∃ text, document {} ⟨[⟨[.chord restAndNote]⟩]⟩ = .ok text := by
  have hchord : (chord {} restAndNote).isOk = true := by
    have hsorted := ascending_restAndNote
    simp only [chord, restAndNote] at hsorted ⊢
    rw [hsorted]
    decide +kernel
  apply exists_document
  intro p hp e he
  obtain rfl := List.mem_singleton.mp hp
  obtain rfl := List.mem_singleton.mp he
  exact exists_eq_ok hchord

/-- The chord is written with the rest symbol between its brackets. -/
theorem rest_in_chord : ∃ piece text, Piece.parse "<0 1>:1" = .ok piece ∧
    document {} piece = .ok text ∧ chordBodies text = [["r", "c'"]] ∧
    ¬ ∀ names ∈ chordBodies text, ∀ word ∈ names, Spelling.nineteen.IsName word := by
  obtain ⟨text, h⟩ := exists_document_restAndNote
  have hnames : memberNames {} restAndNote = ["r", "c'"] := by
    rw [memberNames, ascending_restAndNote]
    decide +kernel
  have hwritten : writtenInPiece {} ⟨[⟨[.chord restAndNote]⟩]⟩ = [["r", "c'"]] := by
    have hquarter : Template.ofDuration (.product ⟨[.ofInt 1]⟩) = .ok ⟨[4], none⟩ :=
      eq_ok_of_toOption (by decide +kernel)
    have hcopies : writtenChords {} (.chord restAndNote) = [memberNames {} restAndNote] := by
      simp only [writtenChords, restAndNote, hquarter]
      rfl
    simp only [writtenInPiece, writtenInPart, List.flatMap_cons, List.flatMap_nil, hcopies, hnames,
      List.append_nil]
  have htext : chordBodies text = [["r", "c'"]] := by
    rw [chordBodies, (encloses_document h).bodies_eq, hwritten]
    decide +kernel
  refine ⟨_, text, parse_restAndNote, h, htext, fun hnames => ?_⟩
  rw [htext] at hnames
  exact not_isName_restName .nineteen
    (hnames _ (List.mem_singleton_self _) "r" List.mem_cons_self)

theorem chordBodies_restAndNote : ∃ text, document {} ⟨[⟨[.chord restAndNote]⟩]⟩ = .ok text ∧
    chordBodies text = writtenInPiece {} ⟨[⟨[.chord restAndNote]⟩]⟩ ∧
    (∀ names ∈ chordBodies text, ∀ word ∈ names,
      word = restName ∨ Spelling.nineteen.IsName word) ∧
    ((∃ names ∈ chordBodies text, restName ∈ names) ↔
      ∃ p ∈ [(⟨[.chord restAndNote]⟩ : Part)], ∃ notes, Event.chord notes ∈ p.events ∧
        ∃ n ∈ notes, n.isRest = true) := by
  obtain ⟨text, h⟩ := exists_document_restAndNote
  exact ⟨text, h, chordBodies_of_document h⟩

end JustIntonation.Score
