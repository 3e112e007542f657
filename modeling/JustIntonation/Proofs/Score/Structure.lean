/-
JustIntonation/Proofs/Score/Structure.lean

A score has the structure of its piece.

The lines of a score are those of a fixed opening, a block for every part and
a fixed closing, and a block has a line for every event that is not an empty
chord (`IsStaff`).  Such a line is read as tied note values and an annotation
behind the first of them, all of that in a tuplet or not (`IsEventLine`).
Outside of the opening and the closing of blocks and tuplets there are no
braces, and so all braces are balanced.

Main result: `isScore_of_document`.
-/
import JustIntonation.Proofs.Score.Bodies
import JustIntonation.Proofs.Score.Document
import JustIntonation.Proofs.Text.Braces
import JustIntonation.Proofs.Text.Words

namespace JustIntonation.Score

open Text

/-! ### Blanks at the ends -/

/-- No blanks stand behind a text that ends with something else. -/
theorem eq_nil_of_append_blanks {cs ds blanks : List Char} (h : cs = ds ++ blanks)
    (hblanks : ∀ c ∈ blanks, isBlank c = true) (hlast : ∀ c ∈ cs.getLast?, isBlank c = false) :
    blanks = [] := by
  obtain rfl | ⟨front, c, rfl⟩ := List.eq_nil_or_concat blanks
  · rfl
  · rw [List.concat_eq_append] at h hblanks
    have hsolid : isBlank c = false := by
      refine hlast c ?_
      rw [h, ← List.append_assoc]
      exact List.getLast?_concat
    rw [hblanks c List.mem_append_cons_self] at hsolid
    cases hsolid

/-- No blanks stand in front of a text that begins with something else. -/
theorem eq_nil_of_blanks_append {cs ds blanks : List Char} (h : cs = blanks ++ ds)
    (hblanks : ∀ c ∈ blanks, isBlank c = true) (hfirst : ∀ c ∈ cs.head?, isBlank c = false) :
    blanks = [] := by
  cases blanks with
  | nil => rfl
  | cons c blanks =>
    have hsolid : isBlank c = false := hfirst c (by rw [h]; rfl)
    rw [hblanks c List.mem_cons_self] at hsolid
    cases hsolid

/-- Trimming takes blanks from the middle of a text only if nothing stands behind that. -/
theorem exists_trim_append {s : String} {front mid back : List Char}
    (hs : s.toList = front ++ mid ++ back) (hne : front ≠ [])
    (hfirst : ∀ c ∈ front.head?, isBlank c = false)
    (hlast : ∀ c ∈ front.getLast?, isBlank c = false)
    (hback : ∀ c ∈ back.getLast?, isBlank c = false) :
    ∃ kept blanks, mid = kept ++ blanks ∧ (∀ c ∈ blanks, isBlank c = true) ∧
      (trim s).toList = front ++ kept ++ back := by
  obtain ⟨before, behind, hbefore, hbehind, htrim⟩ := exists_trim s
  have hhead : s.toList.head? = front.head? := by
    rw [hs, List.append_assoc, List.head?_append_of_ne_nil _ hne]
  rw [List.append_assoc] at htrim
  rw [eq_nil_of_blanks_append htrim hbefore (by rw [hhead]; exact hfirst), List.nil_append] at htrim
  rw [htrim] at hs
  cases back with
  | nil =>
    rw [List.append_nil] at hs
    obtain ⟨rest, hfront, hrest⟩ | ⟨kept, hkept, hmid⟩ := List.append_eq_append_iff.mp hs
    · have hnil : rest = [] := by
        refine eq_nil_of_append_blanks hfront (fun c hc => hbehind c ?_) hlast
        rw [hrest]
        exact List.mem_append_left _ hc
      subst hnil
      rw [List.append_nil] at hfront
      exact ⟨[], behind, hrest.symm, hbehind, by simp [hfront]⟩
    · exact ⟨kept, behind, hmid, hbehind, by rw [hkept, List.append_nil]⟩
  | cons c cs =>
    have hnil : behind = [] := by
      refine eq_nil_of_append_blanks hs.symm hbehind ?_
      rw [List.getLast?_append_of_ne_nil _ (List.cons_ne_nil c cs)]
      exact hback
    rw [hnil, List.append_nil] at hs
    exact ⟨mid, [], (List.append_nil mid).symm, nofun, hs⟩

/-! ### Tied note values -/

/-- Note values with a joint between every two of them, and an annotation behind the first of
them: what stands in front of the annotation has no other note value. -/
def Tied (joint : Char) (notes : List (List Char)) (marking body : List Char) : Prop :=
  ∃ front back, body = front ++ marking ++ back ∧ (front ++ back).splitOn joint = notes ∧
    (front.splitOn joint).filter (· ≠ []) = notes.take 1

theorem count_intercalate {joint c : Char} {notes : List (List Char)}
    (h : ∀ note ∈ notes, c ∉ note) :
    ([joint].intercalate notes).count c = if c = joint then notes.length - 1 else 0 := by
  induction notes with
  | nil => simp
  | cons note notes ih =>
    obtain ⟨hnote, hnotes⟩ := List.forall_mem_cons.mp h
    cases notes with
    | nil => simp [List.count_eq_zero.mpr hnote]
    | cons next notes =>
      rw [List.intercalate_cons_cons, List.count_append, List.count_append, ih hnotes,
        List.count_eq_zero.mpr hnote]
      by_cases hjoint : c = joint
      · subst hjoint
        simp
        omega
      · simp [hjoint, Ne.symm hjoint]

theorem append_intercalate (joint : Char) (note : List Char) (notes : List (List Char)) :
    note ++ (if notes = [] then [] else [joint]) ++ [joint].intercalate notes
      = [joint].intercalate (note :: notes) := by
  cases notes with
  | nil => simp
  | cons next notes => rw [if_neg (List.cons_ne_nil _ _), List.intercalate_cons_cons]

theorem tied_intercalate {joint : Char} {note : List Char} {notes : List (List Char)}
    (h : ∀ n ∈ note :: notes, n ≠ [] ∧ joint ∉ n) (marking : List Char) :
    Tied joint (note :: notes) marking
      (note ++ (if notes = [] then [] else [joint]) ++ marking ++ [joint].intercalate notes) := by
  obtain ⟨hne, hnote⟩ := h note List.mem_cons_self
  refine ⟨_, _, rfl, ?_, ?_⟩
  · rw [append_intercalate]
    exact List.splitOn_intercalate joint (fun n hn => (h n hn).2) (List.cons_ne_nil _ _)
  · split_ifs
    · rw [List.append_nil, List.splitOn_eq_singleton hnote, List.filter_cons_of_pos (by simp [hne])]
      rfl
    · rw [List.splitOn_append_cons_self_of_not_mem hnote,
        List.filter_cons_of_pos (by simp [hne])]
      rfl

/-! ### Events -/

/-- The characters of pitches, note values and annotations. -/
def IsEventChar (c : Char) : Prop := IsRemarkChar c ∨ c ∈ '<' :: '>' :: nameLetters

instance (c : Char) : Decidable (IsEventChar c) := inferInstanceAs (Decidable (_ ∨ _))

/-- How the pitch of an event is written. -/
def pitchText (options : Options) : Event → String
  | .note n => spell options.f0 options.spelling n
  | .chord notes => "<" ++ " ".intercalate (memberNames options notes) ++ ">"

/-- A note value at the pitch of an event. -/
def noteText (options : Options) (e : Event) (v : ℕ) : String := pitchText options e ++ toString v

/-- What joins the note values of an event: ties, but blanks where there is only a rest. -/
def jointOf : Event → Char
  | .note n => if n.isRest then ' ' else '~'
  | .chord _ => '~'

/-- What is remarked on an event: nothing on a rest, and otherwise the deviations of the notes
and the ratios of untempered ones. -/
inductive Remarked (options : Options) : Event → String → Prop
  | rest {n : Note} (silent : n.isRest = true) : Remarked options (.note n) ""
  | note {n : Note} {deviation : String} (sounds : n.isRest = false)
      (measured : centDeviation options.referenceDivisions n = .ok deviation) :
      Remarked options (.note n) (remark [deviation] ((factorsOf n.frequency).map fun factors =>
        ((splitLast factors).1, [(splitLast factors).2])))
  | chord {notes : List Note} {deviations : List String}
      (measured : (ascending notes).mapM (centDeviation options.referenceDivisions)
        = .ok deviations) :
      Remarked options (.chord notes) (remark deviations
        (((ascending notes).mapM fun n => factorsOf n.frequency).map splitShared))

/-- The line of an event whose duration has the template: in the tuplet of the template, if it
has one, every note value at the pitch of the event, with a tie or a blank between every two of
them and the remark behind the first. -/
structure IsEventLine (options : Options) (e : Event) (template : Template) (line : String) :
    Prop where
  timed : ∃ n, e.notes.head? = some n ∧ Template.ofDuration n.duration = .ok template
  written : ∃ text marking blanks body, Remarked options e text ∧
    text.toList = marking ++ blanks ∧ (∀ c ∈ blanks, isBlank c = true) ∧
    Tied (jointOf e) (template.noteValues.map fun v => (noteText options e v).toList)
      marking body ∧
    line.toList = template.opening.toList ++ body ++ template.closing.toList ∧
    ∀ c ∈ body, IsEventChar c ∨ c = '~'
  ties : line.toList.count '~' = if jointOf e = '~' then template.noteValues.length - 1 else 0
  tuplet : "\\tuplet ".toList <:+: line.toList ↔ template.tuplet.isSome = true

section Events

variable {options : Options} {e : Event} {text line : String} {template : Template}

theorem isEventChar_spell (options : Options) (n : Note) :
    ∀ c ∈ (spell options.f0 options.spelling n).toList, IsEventChar c := by
  intro _ hc
  exact .inr (List.mem_cons_of_mem _ (List.mem_cons_of_mem _ (spell_subset_nameLetters _ _ n hc)))

theorem isEventChar_pitchText (options : Options) (e : Event) :
    ∀ c ∈ (pitchText options e).toList, IsEventChar c := by
  cases e with
  | note n => exact isEventChar_spell options n
  | chord notes =>
    have hnames : ∀ s ∈ memberNames options notes, ∀ c ∈ s.toList, IsEventChar c := by
      rw [memberNames, List.forall_mem_map]
      exact fun n _ => isEventChar_spell options n
    have hmarks : ∀ s ∈ ["<", " ", ">"], ∀ c ∈ s.toList, IsEventChar c := by
      simp only [← List.all_iff_forall_prop]
      decide
    simp only [pitchText, String.toList_append, List.forall_mem_append]
    exact ⟨⟨hmarks "<" (by decide), forall_mem_intercalate (hmarks " " (by decide)) hnames⟩,
      hmarks ">" (by decide)⟩

/-- The name of a pitch is a word. -/
theorem isWord_spell (options : Options) (n : Note) :
    IsWord (spell options.f0 options.spelling n).toList := by
  have hletters : ∀ c ∈ nameLetters, isBlank c = false :=
    List.all_iff_forall_prop.mp (by decide)
  refine ⟨?_, fun c hc => hletters c (spell_subset_nameLetters _ _ n hc)⟩
  cases hrest : n.isRest with
  | true =>
    rw [spell_of_isRest hrest]
    decide
  | false =>
    have hspell : options.spelling.IsName (spell options.f0 options.spelling n) :=
      isName_spell hrest
    obtain ⟨name, hname, count, mark, -, hword⟩ := hspell
    have hnames : ∀ name ∈ options.spelling.names, name.toList ≠ [] := by
      cases options.spelling <;> decide
    rw [hword]
    exact List.append_ne_nil_of_left_ne_nil (hnames name hname) _

/-- A pitch begins with a letter or with a bracket. -/
theorem exists_pitchText_eq_cons (options : Options) (e : Event) :
    ∃ c cs, (pitchText options e).toList = c :: cs ∧ isBlank c = false := by
  cases e with
  | note n =>
    obtain ⟨hne, hchars⟩ := isWord_spell options n
    obtain ⟨c, cs, hcs⟩ := List.exists_cons_of_ne_nil hne
    exact ⟨c, cs, hcs, hchars c (by rw [hcs]; exact List.mem_cons_self)⟩
  | chord notes =>
    refine ⟨'<', (" ".intercalate (memberNames options notes) ++ ">").toList, ?_, by decide⟩
    rw [pitchText, String.append_assoc, String.toList_append]
    rfl

theorem isWord_toString (v : ℕ) : IsWord (toString v).toList := by
  rw [toList_toString]
  refine ⟨Nat.toDigits_ne_nil, fun c hc => ?_⟩
  rw [Bool.eq_false_iff]
  intro hblank
  have hdigit := isDigit_of_mem_toDigits hc
  rw [isDigit_of_isBlank hblank] at hdigit
  cases hdigit

theorem isEventChar_of_remarked (h : Remarked options e text) :
    ∀ c ∈ text.toList, IsEventChar c := by
  cases h with
  | rest => exact nofun
  | note _ measured =>
    intro c hc
    exact .inl (isRemarkChar_remark
      (List.forall_mem_singleton.mpr (numeric_centDeviation measured)) _ c hc)
  | @chord notes deviations measured =>
    have hnumeric : ∀ s ∈ deviations, Numeric s := by
      intro s hs
      obtain ⟨n, -, hn⟩ := exists_of_mem_of_mapM_eq_ok measured hs
      exact numeric_centDeviation hn
    exact fun c hc => .inl (isRemarkChar_remark hnumeric _ c hc)

theorem isEventChar_noteText (options : Options) (e : Event) (v : ℕ) :
    ∀ c ∈ (noteText options e v).toList, IsEventChar c := by
  rw [noteText, String.toList_append, List.forall_mem_append]
  exact ⟨isEventChar_pitchText options e, fun c hc => .inl ((numeric_nat v).isRemarkChar c hc)⟩

theorem noteText_ne_nil (options : Options) (e : Event) (v : ℕ) :
    (noteText options e v).toList ≠ [] := by
  rw [noteText, String.toList_append]
  exact List.append_ne_nil_of_right_ne_nil _ (isWord_toString v).ne_nil

theorem tie_not_mem_noteText (options : Options) (e : Event) (v : ℕ) :
    '~' ∉ (noteText options e v).toList :=
  fun hmem => absurd (isEventChar_noteText options e v _ hmem) (by decide)

theorem jointOf_eq (e : Event) : jointOf e = ' ' ∨ jointOf e = '~' := by
  cases e with
  | note n =>
    rw [jointOf]
    split_ifs
    · exact .inl rfl
    · exact .inr rfl
  | chord notes => exact .inr rfl

/-- Nothing joins note values that is in one of them. -/
theorem jointOf_not_mem_noteText (options : Options) (e : Event) (v : ℕ) :
    jointOf e ∉ (noteText options e v).toList := by
  cases e with
  | chord notes => exact tie_not_mem_noteText options _ v
  | note n =>
    rw [jointOf]
    split_ifs
    · intro hmem
      rw [noteText, String.toList_append, List.mem_append] at hmem
      have hblank : isBlank ' ' = false :=
        hmem.elim ((isWord_spell options n).chars _) ((isWord_toString v).chars _)
      cases hblank
    · exact tie_not_mem_noteText options _ v

/-! ### Bodies -/

/-- Note values at the pitch of an event, joined, with an annotation behind the first and its
joint. -/
def bodyText (options : Options) (e : Event) (v : ℕ) (vs : List ℕ) (marking : List Char) :
    List Char :=
  (noteText options e v).toList ++ (if vs = [] then [] else [jointOf e]) ++ marking
    ++ ((String.singleton (jointOf e)).intercalate (vs.map (noteText options e))).toList

theorem toList_intercalate_noteText (options : Options) (e : Event) (vs : List ℕ) :
    ((String.singleton (jointOf e)).intercalate (vs.map (noteText options e))).toList
      = [jointOf e].intercalate (vs.map fun v => (noteText options e v).toList) := by
  rw [String.toList_intercalate, String.toList_singleton, List.map_map]
  rfl

theorem tied_bodyText (options : Options) (e : Event) (v : ℕ) (vs : List ℕ)
    (marking : List Char) :
    Tied (jointOf e) ((v :: vs).map fun v => (noteText options e v).toList) marking
      (bodyText options e v vs marking) := by
  have htied := tied_intercalate (List.forall_mem_map.mpr fun w (_ : w ∈ v :: vs) =>
    ⟨noteText_ne_nil options e w, jointOf_not_mem_noteText options e w⟩) marking
  simp only [List.map_eq_nil_iff] at htied
  rw [bodyText, toList_intercalate_noteText]
  exact htied

theorem mem_bodyText {marking : List Char} (h : ∀ c ∈ marking, IsEventChar c) (v : ℕ)
    (vs : List ℕ) : ∀ c ∈ bodyText options e v vs marking, IsEventChar c ∨ c = '~' := by
  have hnotes : ∀ s ∈ vs.map (noteText options e), ∀ c ∈ s.toList, IsEventChar c ∨ c = '~' := by
    rw [List.forall_mem_map]
    exact fun v _ c hc => .inl (isEventChar_noteText options e v c hc)
  have hjoint : ∀ c ∈ [jointOf e], IsEventChar c ∨ c = '~' :=
    List.forall_mem_singleton.mpr ((jointOf_eq e).imp_left fun h => by rw [h]; decide)
  simp only [bodyText, List.forall_mem_append]
  refine ⟨⟨⟨fun c hc => .inl (isEventChar_noteText options e v c hc), ?_⟩,
    fun c hc => .inl (h c hc)⟩, forall_mem_intercalate ?_ hnotes⟩
  · split_ifs
    · exact nofun
    · exact hjoint
  · rw [String.toList_singleton]
    exact hjoint

theorem count_tie_bodyText {marking : List Char} (h : ∀ c ∈ marking, IsEventChar c) (v : ℕ)
    (vs : List ℕ) : (bodyText options e v vs marking).count '~'
      = if jointOf e = '~' then vs.length else 0 := by
  have hmarking : marking.count '~' = 0 :=
    List.count_eq_zero.mpr fun hmem => absurd (h _ hmem) (by decide)
  have hnotes : ([jointOf e].intercalate
      ((v :: vs).map fun v => (noteText options e v).toList)).count '~'
      = if jointOf e = '~' then vs.length else 0 := by
    rw [count_intercalate (List.forall_mem_map.mpr fun w _ => tie_not_mem_noteText options e w),
      List.length_map, List.length_cons, Nat.add_sub_cancel]
    simp only [eq_comm]
  rw [List.map_cons, ← append_intercalate, List.count_append, List.count_append] at hnotes
  simp only [List.map_eq_nil_iff] at hnotes
  rw [bodyText, toList_intercalate_noteText, List.count_append, List.count_append,
    List.count_append, hmarking, Nat.add_zero, hnotes]

/-! ### Lines -/

/-- A tuplet opens and closes with its only braces, if there is one. -/
theorem opening_closing (t : Template) : (t.opening.toList = [] ∧ t.closing.toList = []) ∨
    ∃ front, (∀ c ∈ '\\' :: front, IsRemarkChar c ∨ c ∈ "\\upl".toList) ∧
      t.opening.toList = '\\' :: front ++ ['\x7b'] ∧ t.closing.toList = ['\x7d'] := by
  obtain ⟨values, - | ⟨odd, scale⟩⟩ := t
  · exact .inl ⟨rfl, rfl⟩
  · have hclosing : "\x7d".toList = ['\x7d'] := rfl
    refine .inr ⟨("tuplet " ++ toString odd ++ "/" ++ toString scale ++ " ").toList, ?_, ?_,
      hclosing⟩
    · have hnumber : ∀ n : ℕ, ∀ c ∈ (toString n).toList, IsRemarkChar c ∨ c ∈ "\\upl".toList :=
        fun n c hc => .inl ((numeric_nat n).isRemarkChar c hc)
      have hletters : ∀ s ∈ ["tuplet ", "/", " "], ∀ c ∈ s.toList,
          IsRemarkChar c ∨ c ∈ "\\upl".toList := by
        simp only [← List.all_iff_forall_prop]
        decide
      simp only [String.toList_append, List.forall_mem_cons, List.forall_mem_append]
      exact ⟨by decide, ⟨⟨⟨hletters "tuplet " (by decide), hnumber odd⟩,
        hletters "/" (by decide)⟩, hnumber scale⟩, hletters " " (by decide)⟩
    · simp only [Template.opening, String.toList_append, List.append_assoc, List.cons_append]
      rfl

theorem mem_opening (t : Template) :
    ∀ c ∈ t.opening.toList, IsRemarkChar c ∨ c ∈ "\\upl\x7b".toList := by
  obtain ⟨hopening, -⟩ | ⟨front, hfront, hopening, -⟩ := opening_closing t
  · rw [hopening]
    exact nofun
  · have hletters : "\\upl".toList ⊆ "\\upl\x7b".toList := by decide
    rw [hopening, List.forall_mem_append]
    exact ⟨fun c hc => (hfront c hc).imp_right fun hc => hletters hc,
      List.forall_mem_singleton.mpr (.inr (by decide))⟩

theorem mem_closing (t : Template) : ∀ c ∈ t.closing.toList, c = '\x7d' := by
  obtain ⟨-, hclosing⟩ | ⟨front, -, -, hclosing⟩ := opening_closing t
  · rw [hclosing]
    exact nofun
  · rw [hclosing]
    exact List.forall_mem_singleton.mpr rfl

/-- A tuplet is closed behind what stands in it. -/
theorem depth_tuplet (t : Template) {cs : List Char} (h : ∀ n, depth n cs = some n) (n : ℕ) :
    depth n (t.opening.toList ++ cs ++ t.closing.toList) = some n := by
  obtain ⟨hopening, hclosing⟩ | ⟨front, hfront, hopening, hclosing⟩ := opening_closing t
  · rw [hopening, hclosing, List.append_nil, List.nil_append, h]
  · have hterms : depth n ('\\' :: front) = some n := by
      apply depth_of_not_mem
      · exact fun hmem => absurd (hfront _ hmem) (by decide)
      · exact fun hmem => absurd (hfront _ hmem) (by decide)
    have hopen : depth n ['\x7b'] = some (n + 1) := rfl
    have hclose : depth (n + 1) ['\x7d'] = some n := rfl
    rw [hopening, hclosing, depth_append, depth_append, depth_append, hterms, Option.bind_some,
      hopen, Option.bind_some, h, Option.bind_some, hclose]

/-- Between the opening and the closing there is no sign of a tuplet. -/
theorem tuplet_infix_iff (t : Template) {body : List Char}
    (h : ∀ c ∈ body, IsEventChar c ∨ c = '~') :
    "\\tuplet ".toList <:+: t.opening.toList ++ body ++ t.closing.toList
      ↔ t.tuplet.isSome = true := by
  obtain ⟨values, - | ⟨odd, scale⟩⟩ := t
  · refine ⟨fun hwithin => ?_, nofun⟩
    have hsign : '\\' ∈ [] ++ body ++ [] := hwithin.subset (by decide)
    rw [List.append_nil, List.nil_append] at hsign
    exact absurd (h _ hsign) (by decide)
  · refine ⟨fun _ => rfl, fun _ => ?_⟩
    simp only [Template.opening, String.toList_append, List.append_assoc]
    exact (List.prefix_append _ _).isInfix

theorem head?_opening_append (t : Template) {cs : List Char}
    (h : ∀ c ∈ cs.head?, isBlank c = false) :
    ∀ c ∈ (t.opening.toList ++ cs).head?, isBlank c = false := by
  obtain ⟨hopening, -⟩ | ⟨front, -, hopening, -⟩ := opening_closing t
  · rwa [hopening]
  · rw [hopening]
    rintro _ ⟨⟩
    decide

theorem getLast?_append_closing (t : Template) {cs : List Char}
    (h : ∀ c ∈ cs.getLast?, isBlank c = false) :
    ∀ c ∈ (cs ++ t.closing.toList).getLast?, isBlank c = false := by
  obtain ⟨-, hclosing⟩ | ⟨front, -, -, hclosing⟩ := opening_closing t
  · rwa [hclosing, List.append_nil]
  · rw [hclosing, List.getLast?_concat]
    rintro _ ⟨⟩
    decide

/-- What an event is written as if its remark is written as the annotation. -/
theorem isEventLine_of_toList {n : Note} {v : ℕ} {vs : List ℕ} {marking blanks : List Char}
    (hn : e.notes.head? = some n) (htemplate : Template.ofDuration n.duration = .ok template)
    (hvalues : template.noteValues = v :: vs) (hremark : Remarked options e text)
    (htext : text.toList = marking ++ blanks) (hblanks : ∀ c ∈ blanks, isBlank c = true)
    (hline : line.toList = template.opening.toList ++ bodyText options e v vs marking
      ++ template.closing.toList) : IsEventLine options e template line := by
  have hmarking : ∀ c ∈ marking, IsEventChar c := by
    intro c hc
    refine isEventChar_of_remarked hremark c ?_
    rw [htext]
    exact List.mem_append_left _ hc
  refine ⟨⟨n, hn, htemplate⟩, ⟨text, marking, blanks, _, hremark, htext, hblanks, ?_, hline,
    mem_bodyText hmarking v vs⟩, ?_, ?_⟩
  · rw [hvalues]
    exact tied_bodyText options e v vs marking
  · have hopening : template.opening.toList.count '~' = 0 :=
      List.count_eq_zero.mpr fun hmem => absurd (mem_opening template _ hmem) (by decide)
    have hclosing : template.closing.toList.count '~' = 0 :=
      List.count_eq_zero.mpr fun hmem => absurd (mem_closing template _ hmem) (by decide)
    rw [hline, List.count_append, List.count_append, hopening, hclosing,
      count_tie_bodyText hmarking, hvalues, Nat.zero_add, Nat.add_zero, List.length_cons,
      Nat.add_sub_cancel]
  · rw [hline]
    exact tuplet_infix_iff template (mem_bodyText hmarking v vs)

theorem toList_render {v : ℕ} {vs : List ℕ} (hvalues : template.noteValues = v :: vs)
    (options : Options) (e : Event) (text : String) :
    (template.render (String.singleton (jointOf e)) (pitchText options e) text).toList
      = template.opening.toList ++ bodyText options e v vs text.toList
        ++ template.closing.toList := by
  have hjoint : (if vs = [] then "" else String.singleton (jointOf e)).toList
      = if vs = [] then [] else [jointOf e] := by
    split_ifs
    · rfl
    · exact String.toList_singleton _
  rw [render_eq _ _ _ hvalues, bodyText]
  simp only [String.toList_append, hjoint, noteText, List.append_assoc]
  rfl

theorem getLast?_noteText (options : Options) (e : Event) (v : ℕ) :
    ∀ c ∈ (noteText options e v).toList.getLast?, isBlank c = false := by
  rw [noteText, String.toList_append,
    List.getLast?_append_of_ne_nil _ (isWord_toString v).ne_nil]
  exact fun c hc => (isWord_toString v).chars c (List.mem_of_getLast? hc)

theorem getLast?_intercalate {joint : Char} {notes : List (List Char)}
    (h : ∀ note ∈ notes, note ≠ [] ∧ ∀ c ∈ note.getLast?, isBlank c = false) :
    ∀ c ∈ ([joint].intercalate notes).getLast?, isBlank c = false := by
  induction notes with
  | nil => exact nofun
  | cons note notes ih =>
    obtain ⟨hnote, hnotes⟩ := List.forall_mem_cons.mp h
    cases notes with
    | nil => simpa using hnote.2
    | cons next notes =>
      have hne : [joint].intercalate (next :: notes) ≠ [] := by
        rw [← append_intercalate, List.append_assoc]
        exact List.append_ne_nil_of_left_ne_nil (hnotes next List.mem_cons_self).1 _
      rw [List.intercalate_cons_cons, List.getLast?_append_of_ne_nil _ hne]
      exact ih hnotes

theorem isEventLine_trim {n : Note} (hn : e.notes.head? = some n)
    (htemplate : Template.ofDuration n.duration = .ok template) (hjoint : jointOf e = '~')
    (hremark : Remarked options e text) :
    IsEventLine options e template
      (trim (template.render (String.singleton (jointOf e)) (pitchText options e) text)) := by
  obtain ⟨v, vs, hvalues⟩ := List.exists_cons_of_ne_nil (noteValues_ne_nil htemplate)
  have hrender := toList_render hvalues options e text
  have hassoc : ∀ front note joint text rest closing : List Char,
      front ++ (note ++ joint ++ text ++ rest) ++ closing
        = front ++ note ++ joint ++ text ++ (rest ++ closing) := by
    intros
    simp only [List.append_assoc]
  rw [bodyText, hassoc] at hrender
  have hne : template.opening.toList ++ (noteText options e v).toList
      ++ (if vs = [] then [] else [jointOf e]) ≠ [] :=
    List.append_ne_nil_of_left_ne_nil
      (List.append_ne_nil_of_right_ne_nil _ (noteText_ne_nil options e v)) _
  have hfirst : ∀ c ∈ (template.opening.toList ++ (noteText options e v).toList
      ++ (if vs = [] then [] else [jointOf e])).head?, isBlank c = false := by
    obtain ⟨c, cs, hpitch, hblank⟩ := exists_pitchText_eq_cons options e
    rw [List.append_assoc]
    refine head?_opening_append template ?_
    rw [noteText, String.toList_append, hpitch]
    rintro _ ⟨⟩
    exact hblank
  have hlast : ∀ c ∈ (template.opening.toList ++ (noteText options e v).toList
      ++ (if vs = [] then [] else [jointOf e])).getLast?, isBlank c = false := by
    split_ifs
    · rw [List.append_nil, List.getLast?_append_of_ne_nil _ (noteText_ne_nil options e v)]
      exact getLast?_noteText options e v
    · rw [List.getLast?_concat, hjoint]
      rintro _ ⟨⟩
      decide
  have hback : ∀ c ∈ (((String.singleton (jointOf e)).intercalate
      (vs.map (noteText options e))).toList ++ template.closing.toList).getLast?,
      isBlank c = false := by
    refine getLast?_append_closing template ?_
    rw [toList_intercalate_noteText]
    exact getLast?_intercalate (List.forall_mem_map.mpr fun w _ =>
      ⟨noteText_ne_nil options e w, getLast?_noteText options e w⟩)
  obtain ⟨marking, blanks, htext, hblanks, htrim⟩ :=
    exists_trim_append hrender hne hfirst hlast hback
  refine isEventLine_of_toList hn htemplate hvalues hremark htext hblanks ?_
  rw [htrim, bodyText, hassoc]

/-- Every event is written on a line of its own, an empty chord aside. -/
theorem exists_isEventLine (h : event options e = .ok line) (hne : e ≠ .chord []) :
    ∃ template, IsEventLine options e template line := by
  obtain n | notes := e
  · obtain ⟨template, htemplate, h⟩ := bind_eq_ok.mp h
    refine ⟨template, ?_⟩
    split_ifs at h with hrest
    · obtain rfl := pure_eq_ok.mp h
      obtain ⟨v, vs, hvalues⟩ := List.exists_cons_of_ne_nil (noteValues_ne_nil htemplate)
      have hrender := toList_render hvalues options (.note n) ""
      rw [show jointOf (.note n) = ' ' from if_pos hrest,
        show pitchText options (.note n) = restName from spell_of_isRest hrest] at hrender
      exact isEventLine_of_toList rfl htemplate hvalues (.rest hrest) (List.append_nil []).symm
        nofun hrender
    · obtain ⟨deviation, hdeviation, h⟩ := bind_eq_ok.mp h
      obtain rfl := pure_eq_ok.mp h
      have hjoint : jointOf (.note n) = '~' := if_neg hrest
      have hline := isEventLine_trim rfl htemplate hjoint
        (.note (Bool.eq_false_of_not_eq_true hrest) hdeviation)
      rw [hjoint] at hline
      exact hline
  · obtain ⟨first, rest, rfl⟩ := List.exists_cons_of_ne_nil fun h => hne (congrArg Event.chord h)
    obtain ⟨template, htemplate, h⟩ := bind_eq_ok.mp h
    obtain ⟨deviations, hdeviations, h⟩ := bind_eq_ok.mp h
    obtain rfl := pure_eq_ok.mp h
    exact ⟨template, isEventLine_trim rfl htemplate rfl (.chord hdeviations)⟩

namespace IsEventLine

/-- An event is not written as nothing. -/
theorem ne_empty (h : IsEventLine options e template line) : line ≠ "" := by
  rintro rfl
  obtain ⟨n, -, htemplate⟩ := h.timed
  obtain ⟨v, vs, hvalues⟩ := List.exists_cons_of_ne_nil (noteValues_ne_nil htemplate)
  obtain ⟨text, marking, blanks, body, -, -, -, ⟨front, back, hbody, hsplit, -⟩, hline, -⟩ :=
    h.written
  have hnil : template.opening.toList ++ body ++ template.closing.toList = [] := hline.symm
  simp only [hbody, List.append_eq_nil_iff] at hnil
  rw [hnil.1.2.1.1, hnil.1.2.2, hvalues] at hsplit
  obtain ⟨hempty, -⟩ := List.cons.inj hsplit
  exact noteText_ne_nil options e v hempty.symm

theorem mem (h : IsEventLine options e template line) :
    ∀ c ∈ line.toList, IsEventChar c ∨ c ∈ "~\\upl\x7b\x7d".toList := by
  have hletters : "\\upl\x7b".toList ⊆ "~\\upl\x7b\x7d".toList := by decide
  obtain ⟨text, marking, blanks, body, -, -, -, -, hline, hbody⟩ := h.written
  rw [hline, List.forall_mem_append, List.forall_mem_append]
  refine ⟨⟨?_, ?_⟩, ?_⟩
  · exact fun c hc => (mem_opening template c hc).imp .inl fun hc => hletters hc
  · refine fun c hc => (hbody c hc).imp_right ?_
    rintro rfl
    decide
  · intro c hc
    rw [mem_closing template c hc]
    decide

theorem newline_not_mem (h : IsEventLine options e template line) : '\n' ∉ line.toList :=
  fun hmem => absurd (h.mem _ hmem) (by decide)

theorem capital_not_mem (h : IsEventLine options e template line) : 'S' ∉ line.toList :=
  fun hmem => absurd (h.mem _ hmem) (by decide)

/-- The braces of a tuplet are all the braces there are. -/
theorem depth_eq (h : IsEventLine options e template line) (n : ℕ) :
    depth n line.toList = some n := by
  obtain ⟨text, marking, blanks, body, -, -, -, -, hline, hbody⟩ := h.written
  rw [hline]
  refine depth_tuplet template (depth_of_not_mem ?_ ?_) n
  · exact fun hmem => absurd (hbody _ hmem) (by decide)
  · exact fun hmem => absurd (hbody _ hmem) (by decide)

end IsEventLine

end Events

example : (event {} (.note (.rest (.ratio (.ofTerms 5 4 (by decide)))))).toOption
    = some "r4 r16" := by
  decide +kernel

example : (event {} (.note ⟨.ratio (.ofTerms 1 2 (by decide)),
    .ratio (.ofTerms 5 3 (by decide)), .one⟩)).toOption
    = some "\\tuplet 3/2 \x7bc2~ $(cents \"+0\") $(ratios \"1\" \"1/2\") c8\x7d" := by
  decide +kernel

/-! ### Staves -/

/-- The lines of a part: a bass clef if the part reaches down to half of the basic frequency, and
a line for every event that is not an empty chord. -/
def IsStaff (options : Options) (p : Part) (lines : List String) : Prop :=
  ∃ events, lines = (if (Music.part p).lowest.le (.exact (1 / 2)) then ["\\clef bass"] else [])
      ++ events ∧
    List.Forall₂ (fun e line => ∃ template, IsEventLine options e template line)
      (p.events.filter (· ≠ .chord [])) events

/-- The lines of a part in a score. -/
def staffBlock (lines : List String) : List String :=
  "    \\new Staff\x7b" :: (lines.map ("      " ++ ·) ++ ["    \x7d"])

section Staves

variable {options : Options} {p : Part} {lines : List String} {text : String}

/-- The events that are written as nothing are the empty chords. -/
theorem forall₂_isEventLine {events : List Event} {texts : List String}
    (h : List.Forall₂ (fun e s => event options e = .ok s) events texts) :
    List.Forall₂ (fun e line => ∃ template, IsEventLine options e template line)
      (events.filter (· ≠ .chord [])) (texts.filter (!·.isEmpty)) := by
  induction h with
  | nil => exact .nil
  | @cons e s events texts first _ ih =>
    by_cases hempty : e = .chord []
    · subst hempty
      obtain rfl : "" = s := pure_eq_ok.mp first
      exact ih
    · obtain ⟨template, hline⟩ := exists_isEventLine first hempty
      rw [List.filter_cons_of_pos (by simp [hempty]),
        List.filter_cons_of_pos (by simp [hline.ne_empty])]
      exact .cons ⟨template, hline⟩ ih

theorem exists_isStaff (h : staff options 2 p = .ok text) :
    ∃ lines, IsStaff options p lines ∧ text = "\n".intercalate (staffBlock lines) := by
  obtain ⟨lines, hlines, h⟩ := bind_eq_ok.mp h
  obtain rfl := pure_eq_ok.mp h
  obtain ⟨texts, htexts, hlines⟩ := bind_eq_ok.mp hlines
  obtain rfl := pure_eq_ok.mp hlines
  exact ⟨_, ⟨_, rfl, forall₂_isEventLine (mapM_eq_ok.mp htexts)⟩, rfl⟩

/-- What is true of the clef and of the lines of events is true of the lines of a part. -/
theorem IsStaff.forall_mem {r : String → Prop} (h : IsStaff options p lines)
    (hclef : r "\\clef bass")
    (hevent : ∀ e template line, IsEventLine options e template line → r line) :
    ∀ line ∈ lines, r line := by
  obtain ⟨events, rfl, hevents⟩ := h
  rw [List.forall_mem_append]
  refine ⟨?_, fun line hline => ?_⟩
  · split_ifs
    · exact List.forall_mem_singleton.mpr hclef
    · exact nofun
  · obtain ⟨e, -, template, he⟩ := exists_of_mem_of_forall₂ hevents hline
    exact hevent e template line he

theorem IsStaff.newline_not_mem (h : IsStaff options p lines) :
    ∀ line ∈ staffBlock lines, '\n' ∉ line.toList := by
  have hlines := h.forall_mem (r := fun line => '\n' ∉ line.toList) (by decide)
    fun _ _ _ => IsEventLine.newline_not_mem
  rw [staffBlock, List.forall_mem_cons, List.forall_mem_append, List.forall_mem_map]
  refine ⟨by decide, fun line hline => ?_, by decide⟩
  rw [String.toList_append, List.mem_append, not_or]
  exact ⟨by decide, hlines line hline⟩

/-- A staff closes what it opens. -/
theorem IsStaff.depth_eq (h : IsStaff options p lines) :
    depthOfLines 1 (staffBlock lines) = some 1 := by
  have hlines := h.forall_mem (r := fun line => depth 2 line.toList = some 2) (by decide)
    fun _ _ _ he => he.depth_eq 2
  have hbody : depthOfLines 2 (lines.map ("      " ++ ·)) = some 2 := by
    apply depthOfLines_of_forall
    rw [List.forall_mem_map]
    intro line hline
    rw [String.toList_append, depth_append]
    exact hlines line hline
  rw [staffBlock, depthOfLines_cons]
  show (depthOfLines 2 _) = _
  rw [depthOfLines_append, hbody]
  rfl

/-- A staff has one head. -/
theorem IsStaff.countP_eq (h : IsStaff options p lines) :
    ((staffBlock lines).map String.toList).countP
      (fun line => "\\new Staff\x7b".toList <:+: line) = 1 := by
  have hlines := h.forall_mem (r := fun line => 'S' ∉ line.toList) (by decide)
    fun _ _ _ => IsEventLine.capital_not_mem
  have hnone : ∀ {line : List Char}, 'S' ∉ line → ¬ "\\new Staff\x7b".toList <:+: line :=
    fun hline hwithin => hline (hwithin.subset (by decide))
  have hbody : ((lines.map ("      " ++ ·)).map String.toList).countP
      (fun line => "\\new Staff\x7b".toList <:+: line) = 0 := by
    rw [List.countP_eq_zero, List.forall_mem_map, List.forall_mem_map]
    intro line hline
    rw [decide_eq_true_iff]
    refine hnone ?_
    rw [String.toList_append, List.mem_append, not_or]
    exact ⟨by decide, hlines line hline⟩
  rw [staffBlock, List.map_cons, List.map_append, List.countP_cons, List.countP_append, hbody]
  decide

end Staves

/-! ### Scores -/

/-- A text that has the structure of the piece: balanced braces, between the fixed lines of a
score one block for every part in order, and no other head of a staff. -/
structure IsScore (options : Options) (piece : Piece) (text : String) : Prop where
  balanced : Balanced text.toList
  lines : ∃ staves, List.Forall₂ (IsStaff options) piece.parts staves ∧
    text.toList.splitOn '\n'
      = (opening ++ staves.flatMap staffBlock ++ closing).map String.toList
  heads : (text.toList.splitOn '\n').countP (fun line => "\\new Staff\x7b".toList <:+: line)
    = piece.parts.length

section Scores

variable {options : Options} {piece : Piece} {text : String}

theorem exists_staves {parts : List Part} {texts : List String}
    (h : List.Forall₂ (fun p s => staff options 2 p = .ok s) parts texts) :
    ∃ staves, List.Forall₂ (IsStaff options) parts staves ∧
      texts = staves.map fun lines => "\n".intercalate (staffBlock lines) := by
  induction h with
  | nil => exact ⟨[], .nil, rfl⟩
  | cons first _ ih =>
    obtain ⟨lines, hlines, rfl⟩ := exists_isStaff first
    obtain ⟨staves, hstaves, rfl⟩ := ih
    exact ⟨lines :: staves, .cons hlines hstaves, rfl⟩

theorem exists_lines (h : document options piece = .ok text) :
    ∃ staves, List.Forall₂ (IsStaff options) piece.parts staves ∧
      text = "\n".intercalate (opening ++ staves.flatMap staffBlock ++ closing) := by
  obtain ⟨texts, htexts, h⟩ := bind_eq_ok.mp h
  obtain rfl := pure_eq_ok.mp h
  obtain ⟨staves, hstaves, rfl⟩ := exists_staves (mapM_eq_ok.mp htexts)
  refine ⟨staves, hstaves, ?_⟩
  -- The lines of the opening and of the closing are blocks of one line each.
  have hsingle : ∀ lines : List String,
      (lines.map fun line => [line]).map "\n".intercalate = lines ∧
        (lines.map fun line => [line]).flatten = lines := by
    intro lines
    constructor
    · rw [List.map_map]
      exact (List.map_congr_left fun line _ => String.intercalate_singleton).trans
        (List.map_id lines)
    · rw [← List.flatMap_def, List.flatMap_singleton']
  have hne : ∀ block ∈ opening.map (fun line => [line]) ++ staves.map staffBlock
      ++ closing.map (fun line => [line]), block ≠ [] := by
    simp only [List.forall_mem_append, List.forall_mem_map]
    exact ⟨⟨fun _ _ => List.cons_ne_nil _ _, fun _ _ => List.cons_ne_nil _ _⟩,
      fun _ _ => List.cons_ne_nil _ _⟩
  have hblocks := @intercalate_flatten "\n" _ hne
  rw [List.map_append, List.map_append, (hsingle opening).1, (hsingle closing).1, List.map_map,
    List.flatten_append, List.flatten_append, (hsingle opening).2, (hsingle closing).2,
    ← List.flatMap_def] at hblocks
  exact hblocks

/-- Whatever is written as a score has the structure of its piece. -/
theorem isScore_of_document (h : document options piece = .ok text) :
    IsScore options piece text := by
  obtain ⟨staves, hstaves, rfl⟩ := exists_lines h
  have hparts : ∀ lines ∈ staves, ∃ p, IsStaff options p lines := by
    intro lines hlines
    obtain ⟨p, -, hp⟩ := exists_of_mem_of_forall₂ hstaves hlines
    exact ⟨p, hp⟩
  have hlines : ("\n".intercalate (opening ++ staves.flatMap staffBlock ++ closing)).toList.splitOn
      '\n' = (opening ++ staves.flatMap staffBlock ++ closing).map String.toList := by
    apply splitOn_intercalate (by simp [opening])
    rw [List.forall_mem_append, List.forall_mem_append]
    refine ⟨⟨by decide +kernel, fun line hline => ?_⟩, by decide +kernel⟩
    obtain ⟨lines, hlines, hline⟩ := List.mem_flatMap.mp hline
    obtain ⟨p, hp⟩ := hparts lines hlines
    exact hp.newline_not_mem line hline
  refine ⟨?_, ⟨staves, hstaves, hlines⟩, ?_⟩
  · have hopening : depthOfLines 0 opening = some 1 := by decide +kernel
    have hclosing : depthOfLines 1 closing = some 0 := by decide +kernel
    have hstaves : depthOfLines 1 (staves.flatMap staffBlock) = some 1 := by
      rw [List.flatMap_def]
      apply depthOfLines_flatten
      rw [List.forall_mem_map]
      intro lines hlines
      obtain ⟨p, hp⟩ := hparts lines hlines
      exact hp.depth_eq
    apply balanced_of_depth
    rw [depth_intercalate, depthOfLines_append, depthOfLines_append, hopening, Option.bind_some,
      hstaves, Option.bind_some, hclosing]
  · have hopening : (opening.map String.toList).countP
        (fun line => "\\new Staff\x7b".toList <:+: line) = 0 := by decide +kernel
    have hclosing : (closing.map String.toList).countP
        (fun line => "\\new Staff\x7b".toList <:+: line) = 0 := by decide +kernel
    have hheads : ((staves.flatMap staffBlock).map String.toList).countP
        (fun line => "\\new Staff\x7b".toList <:+: line) = staves.length := by
      have hone : staves.map (List.countP (fun line => "\\new Staff\x7b".toList <:+: line)
          ∘ fun lines => (staffBlock lines).map String.toList) = staves.map fun _ => 1 := by
        refine List.map_congr_left fun lines hlines => ?_
        obtain ⟨p, hp⟩ := hparts lines hlines
        exact hp.countP_eq
      rw [List.map_flatMap, List.countP_flatMap, hone, List.map_const', List.sum_replicate,
        smul_eq_mul, mul_one]
    rw [hlines, List.map_append, List.map_append, List.countP_append, List.countP_append, hopening,
      hclosing, hheads, hstaves.length_eq, Nat.zero_add, Nat.add_zero]

end Scores

/-- A note of a duration that is tied in a tuplet, a tied rest and an empty chord in one part,
and a chord in another. -/
def twoStaves : Piece :=
  ⟨[⟨[.note ⟨.ratio (.ofInt 2), .ratio (.ofTerms 5 6 (by decide)), .one⟩,
      .note (.rest (.ratio (.ofInt 5))), .chord []]⟩,
    ⟨[.chord restAndNote]⟩]⟩

theorem isScore_twoStaves :
    ∃ text, document {} twoStaves = .ok text ∧ IsScore {} twoStaves text := by
  have htied : Template.ofDuration (.ratio (.ofTerms 5 6 (by decide)))
      = .ok ⟨[4, 16], some (3, 2)⟩ := eq_ok_of_toOption (by decide +kernel)
  have hrest : Template.ofDuration (.ratio (.ofInt 5)) = .ok ⟨[1, 4], none⟩ :=
    eq_ok_of_toOption (by decide +kernel)
  have hchord : Template.ofDuration (.product ⟨[.ofInt 1]⟩) = .ok ⟨[4], none⟩ :=
    eq_ok_of_toOption (by decide +kernel)
  have hdocument : ∃ text, document {} twoStaves = .ok text := by
    apply exists_document
    simp only [twoStaves, List.forall_mem_cons, List.not_mem_nil, false_implies, implies_true,
      and_true]
    refine ⟨⟨?_, ?_, ?_⟩, ?_⟩
    · exact exists_note (by decide) htied
    · exact exists_note (by decide) hrest
    · exact ⟨"", rfl⟩
    · exact exists_chord (by decide) _ hchord
  obtain ⟨text, htext⟩ := hdocument
  exact ⟨text, htext, isScore_of_document htext⟩

end JustIntonation.Score
