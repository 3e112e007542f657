/-
JustIntonation/Proofs/Score/Annotations.lean

What the annotations in a score say.

An annotation is a call: a dollar sign, and in parentheses a name and its
quoted arguments.  The calls in a text are read back by a reader that knows no
more of the language than that (`annotations`).  Nothing else in an event
holds any of these characters, and blanks at its ends do not matter, so the
calls in the text of an event are those of its remark (`annotations_render`).

Of the ratios it is shown that they multiply back: those of a note to its
frequency, and those of a chord each with the shared one to the frequency of
its member.  What a chord shares is the longest list of ratios that all of its
members begin with (`IsLongestShared`).

Main result: what the texts of notes and chords say (`AnnotatedNote`,
`AnnotatedChord`, `annotations_of_written`).
-/
import JustIntonation.Proofs.Score.Bodies
import JustIntonation.Proofs.Score.Document
import JustIntonation.Proofs.Score.Ratios

namespace JustIntonation.Score

open Text

/-! ### Reading calls -/

/-- The texts between the first quote and the second, between the third and the fourth and so on,
of a text that was taken apart at its quotes. -/
def quoted : List (List Char) → List String
  | _ :: argument :: rest => String.ofList argument :: quoted rest
  | _ => []

/-- The name and the arguments that stand in parentheses. -/
def readParenthesized (cs : List Char) : String × List String :=
  let parts := cs.splitOn '"'
  (String.ofList (((parts.headD []).drop 1).takeWhile (· ≠ ' ')), quoted parts)

/-- A call of which the dollar sign is read already: up to the closing parenthesis. -/
def readCall (cs : List Char) : List (String × List String) :=
  if ')' ∈ cs then [readParenthesized (cs.takeWhile (· ≠ ')'))] else []

/-- The calls that the dollar signs of a text begin. -/
def calls : List Char → List (String × List String)
  | [] => []
  | c :: cs => if c = '$' then readCall cs ++ calls cs else calls cs

/-- The calls in a text, each with its name and its arguments. -/
def annotations (text : String) : List (String × List String) := calls text.toList

/-! ### Texts without calls -/

/-- The characters that calls are read by. -/
def marks : List Char := ['$', ')', '"']

/-- A text without any of them. -/
def Quiet (s : String) : Prop := ∀ c ∈ s.toList, c ∉ marks

instance (s : String) : Decidable (Quiet s) := List.decidableBAll _ s.toList

section Quiet

variable {s t : String}

theorem Quiet.append (hs : Quiet s) (ht : Quiet t) : Quiet (s ++ t) := by
  rw [Quiet, String.toList_append]
  exact List.forall_mem_append.mpr ⟨hs, ht⟩

theorem Quiet.not_mem (h : Quiet s) {c : Char} (hc : c ∈ marks) : c ∉ s.toList :=
  fun hmem => h c hmem hc

theorem Quiet.ne (h : Quiet s) : ∀ c ∈ s.toList, c ≠ '$' ∧ c ≠ ')' := by
  intro c hc
  constructor
  · rintro rfl
    exact h.not_mem (by decide) hc
  · rintro rfl
    exact h.not_mem (by decide) hc

/-- Neither a digit nor a sign is one of the marks. -/
theorem Numeric.quiet (h : Numeric s) : Quiet s := by
  have hmarks : ∀ c ∈ marks, ¬ (c.isDigit = true ∨ c ∈ ['-', '+', '/']) := by
    simp only [marks, List.forall_mem_cons]
    exact ⟨by decide, by decide, by decide, nofun⟩
  exact fun c hc hmark => hmarks c hmark (h c hc)

theorem quiet_spell (f0 : Binary64) (spelling : Spelling) (n : Note) :
    Quiet (spell f0 spelling n) := by
  have hletters : Quiet "abcdefgsr'," := by decide
  exact fun c hc => hletters c (spell_subset_nameLetters f0 spelling n hc)

theorem calls_append_of_not_mem {cs : List Char} (h : '$' ∉ cs) (ds : List Char) :
    calls (cs ++ ds) = calls ds := by
  induction cs with
  | nil => rfl
  | cons c cs ih =>
    rw [List.mem_cons, not_or] at h
    rw [List.cons_append, calls, if_neg (Ne.symm h.1), ih h.2]

theorem takeWhile_ne_append_cons {c : Char} {cs : List Char} (h : c ∉ cs) (ds : List Char) :
    (cs ++ c :: ds).takeWhile (· ≠ c) = cs := by
  have htest : ∀ d ∈ cs, (fun d => decide (d ≠ c)) d = true := by
    intro d hd
    rw [decide_eq_true_iff]
    rintro rfl
    exact h hd
  exact (takeWhile_append_of_all htest (by simp)).1

theorem readCall_of_not_mem {body : List Char} (h : ')' ∉ body) (rest : List Char) :
    readCall (body ++ ')' :: rest) = [readParenthesized body] := by
  rw [readCall, if_pos (by simp), takeWhile_ne_append_cons h]

theorem readCall_append {ds : List Char} (h : ')' ∉ ds) (cs : List Char) :
    readCall (cs ++ ds) = readCall cs := by
  by_cases hcs : ')' ∈ cs
  · obtain ⟨body, rest, rfl, hbody⟩ := List.eq_append_cons_of_mem hcs
    rw [List.append_assoc, List.cons_append, readCall_of_not_mem hbody, readCall_of_not_mem hbody]
  · have hnone : ')' ∉ cs ++ ds := by
      rw [List.mem_append, not_or]
      exact ⟨hcs, h⟩
    rw [readCall, readCall, if_neg hcs, if_neg hnone]

/-- Nothing behind the calls changes them if it has neither a dollar sign nor a parenthesis. -/
theorem calls_append_quiet {cs ds : List Char} (hdollar : '$' ∉ ds) (hclose : ')' ∉ ds) :
    calls (cs ++ ds) = calls cs := by
  induction cs with
  | nil =>
    have hnone := calls_append_of_not_mem hdollar []
    rwa [List.append_nil] at hnone
  | cons c cs ih =>
    rw [List.cons_append, calls, calls, ih, readCall_append hclose]

/-- Blanks at the ends do not matter. -/
theorem annotations_trim (s : String) : annotations (trim s) = annotations s := by
  obtain ⟨front, back, hfront, hback, hs⟩ := exists_trim s
  have hblank : ∀ {cs : List Char} {c : Char}, (∀ c ∈ cs, isBlank c = true) →
      isBlank c = false → c ∉ cs := by
    intro cs c hcs hc hmem
    rw [hcs c hmem] at hc
    cases hc
  rw [annotations, annotations, hs, calls_append_quiet (hblank hback rfl) (hblank hback rfl),
    calls_append_of_not_mem (hblank hfront rfl)]

/-- What stands around a text has no calls. -/
theorem annotations_between (hs : Quiet s) (ht : Quiet t) (mid : String) :
    annotations (s ++ mid ++ t) = annotations mid := by
  rw [annotations, String.toList_append, String.toList_append,
    calls_append_quiet (ht.not_mem (by decide)) (ht.not_mem (by decide)),
    calls_append_of_not_mem (hs.not_mem (by decide)), annotations]

end Quiet

/-! ### Written calls -/

/-- The arguments of a call as they are written. -/
def argumentsText (arguments : List String) : List Char :=
  (" ".intercalate (arguments.map doubleQuoted)).toList

theorem argumentsText_cons_cons (a b : String) (rest : List String) :
    argumentsText (a :: b :: rest)
      = '"' :: a.toList ++ '"' :: ' ' :: argumentsText (b :: rest) := by
  simp [argumentsText, doubleQuoted, String.intercalate_cons_cons]

/-- Quoted arguments are found again between the quotes, whatever stands in front of them. -/
theorem exists_splitOn_argumentsText {arguments : List String}
    (h : ∀ a ∈ arguments, '"' ∉ a.toList) : ∀ front : List Char, '"' ∉ front →
    ∃ parts, (front ++ argumentsText arguments).splitOn '"' = front :: parts ∧
      quoted (front :: parts) = arguments := by
  induction arguments with
  | nil =>
    intro front hfront
    refine ⟨[], ?_, rfl⟩
    rw [argumentsText, List.map_nil, String.intercalate_nil, String.toList_empty, List.append_nil,
      List.splitOn_eq_singleton hfront]
  | cons a rest ih =>
    intro front hfront
    obtain ⟨ha, hrest⟩ := List.forall_mem_cons.mp h
    cases rest with
    | nil =>
      have htext : argumentsText [a] = '"' :: (a.toList ++ '"' :: []) := by
        simp [argumentsText, doubleQuoted]
      refine ⟨[a.toList, []], ?_, by simp [quoted]⟩
      rw [htext, List.splitOn_append_cons_self_of_not_mem hfront,
        List.splitOn_append_cons_self_of_not_mem ha]
      rfl
    | cons b rest =>
      obtain ⟨parts, hparts, hquoted⟩ := ih hrest [' '] (by decide)
      refine ⟨a.toList :: [' '] :: parts, ?_, ?_⟩
      · rw [argumentsText_cons_cons, List.cons_append,
          List.splitOn_append_cons_self_of_not_mem hfront,
          List.splitOn_append_cons_self_of_not_mem ha]
        exact congrArg (front :: a.toList :: ·) hparts
      · rw [quoted, hquoted, String.ofList_toList]

theorem readParenthesized_call {name : List Char} {arguments : List String} (hquote : '"' ∉ name)
    (hblank : ' ' ∉ name) (h : ∀ a ∈ arguments, '"' ∉ a.toList) :
    readParenthesized ('(' :: name ++ ' ' :: argumentsText arguments)
      = (String.ofList name, arguments) := by
  have hfront : '"' ∉ '(' :: name ++ [' '] := by simp [hquote]
  obtain ⟨parts, hparts, hquoted⟩ := exists_splitOn_argumentsText h _ hfront
  rw [List.append_assoc, List.singleton_append] at hparts
  rw [readParenthesized, hparts, hquoted]
  show (String.ofList ((name ++ [' ']).takeWhile (· ≠ ' ')), arguments) = _
  rw [takeWhile_ne_append_cons hblank]

theorem mem_argumentsText {arguments : List String} (h : ∀ a ∈ arguments, Quiet a) :
    ∀ c ∈ argumentsText arguments, c ≠ '$' ∧ c ≠ ')' := by
  have hquoted : ∀ s ∈ arguments.map doubleQuoted, ∀ c ∈ s.toList, c ≠ '$' ∧ c ≠ ')' := by
    rw [List.forall_mem_map]
    intro a ha
    rw [doubleQuoted, String.toList_append, String.toList_append, List.forall_mem_append,
      List.forall_mem_append]
    have hquote : ∀ c ∈ "\"".toList, c ≠ '$' ∧ c ≠ ')' :=
      List.forall_mem_singleton.mpr (by decide)
    exact ⟨⟨hquote, (h a ha).ne⟩, hquote⟩
  exact forall_mem_intercalate (List.forall_mem_singleton.mpr (by decide)) hquoted

/-- A call is read as what was written, and then come the calls behind it. -/
theorem calls_call {name : String} (hname : Quiet name) (hblank : ' ' ∉ name.toList)
    {arguments : List String} (h : ∀ a ∈ arguments, Quiet a) (rest : List Char) :
    calls ((call name arguments).toList ++ rest) = (name, arguments) :: calls rest := by
  have htext : (call name arguments).toList ++ rest
      = '$' :: ('(' :: name.toList ++ ' ' :: argumentsText arguments ++ ')' :: rest) := by
    simp [call, argumentsText]
  have hinside : ∀ c ∈ '(' :: name.toList ++ ' ' :: argumentsText arguments,
      c ≠ '$' ∧ c ≠ ')' := by
    simp only [List.cons_append, List.forall_mem_cons, List.forall_mem_append]
    exact ⟨by decide, hname.ne, by decide, mem_argumentsText h⟩
  rw [htext, calls, if_pos rfl, readCall_of_not_mem fun hc => (hinside _ hc).2 rfl,
    readParenthesized_call (hname.not_mem (by decide)) hblank
      fun a ha => (h a ha).not_mem (by decide), String.ofList_toList,
    calls_append_of_not_mem fun hc => (hinside _ hc).1 rfl]
  rfl

/-! ### The calls of an event -/

/-- The calls of a remark. -/
def remarkCalls (deviations : List String) (ratios : Option (ℚ × List ℚ)) :
    List (String × List String) :=
  ("cents", deviations) :: match ratios with
    | some (base, others) => [("ratios", rationalText base :: others.map rationalText)]
    | none => []

theorem annotations_remark {deviations : List String} (h : ∀ s ∈ deviations, Quiet s)
    (ratios : Option (ℚ × List ℚ)) :
    annotations (remark deviations ratios) = remarkCalls deviations ratios := by
  have hblank : '$' ∉ " ".toList := by decide
  have hcents : ∀ rest : List Char,
      calls (" ".toList ++ ((call "cents" deviations).toList ++ (" ".toList ++ rest)))
        = ("cents", deviations) :: calls rest := by
    intro rest
    rw [calls_append_of_not_mem hblank, calls_call (by decide) (by decide) h,
      calls_append_of_not_mem hblank]
  obtain - | ⟨base, others⟩ := ratios
  · simp only [annotations, remark, String.toList_append, List.append_assoc, hcents]
    rfl
  · have hratios : ∀ s ∈ rationalText base :: others.map rationalText, Quiet s := by
      rw [List.forall_mem_cons, List.forall_mem_map]
      exact ⟨(numeric_rationalText _).quiet, fun q _ => (numeric_rationalText q).quiet⟩
    simp only [annotations, remark, String.toList_append, List.append_assoc, hcents]
    rw [calls_call (by decide) (by decide) hratios]
    rfl

theorem quiet_opening (t : Template) : Quiet t.opening := by
  obtain ⟨values, - | ⟨odd, scale⟩⟩ := t
  · exact nofun
  · exact ((((by decide : Quiet "\\tuplet ").append (numeric_nat odd).quiet).append
      (by decide)).append (numeric_nat scale).quiet).append (by decide)

theorem quiet_closing (t : Template) : Quiet t.closing := by
  obtain ⟨values, - | _⟩ := t
  · exact nofun
  · exact (by decide : Quiet "\x7d")

/-- The remark stands in the text once, and around it there is nothing but pitches, note values
and the signs of ties and tuplets. -/
theorem exists_render {tie pitch : String} (htie : Quiet tie) (hpitch : Quiet pitch)
    (remark : String) {t : Template} (h : t.noteValues ≠ []) : ∃ before after : String,
    Quiet before ∧ Quiet after ∧ t.render tie pitch remark = before ++ remark ++ after := by
  obtain ⟨v, vs, hvalues⟩ := List.exists_cons_of_ne_nil h
  have hnote : ∀ v : ℕ, Quiet (pitch ++ toString v) :=
    fun v => hpitch.append (numeric_nat v).quiet
  have hfirst : Quiet (if vs = [] then "" else tie) := by
    split_ifs
    · exact nofun
    · exact htie
  have hothers : ∀ s ∈ vs.map fun v => pitch ++ toString v, Quiet s := by
    rw [List.forall_mem_map]
    exact fun v _ => hnote v
  refine ⟨_, _, (quiet_opening t).append ((hnote v).append hfirst),
    Quiet.append (forall_mem_intercalate htie hothers) (quiet_closing t), ?_⟩
  rw [render_eq tie pitch remark hvalues, String.append_assoc]

theorem annotations_render {tie pitch : String} (htie : Quiet tie) (hpitch : Quiet pitch)
    {deviations : List String} (hdeviations : ∀ s ∈ deviations, Quiet s)
    (ratios : Option (ℚ × List ℚ)) {t : Template} (h : t.noteValues ≠ []) :
    annotations (trim (t.render tie pitch (remark deviations ratios)))
      = remarkCalls deviations ratios := by
  obtain ⟨before, after, hbefore, hafter, hrender⟩ :=
    exists_render htie hpitch (remark deviations ratios) h
  rw [annotations_trim, hrender, annotations_between hbefore hafter,
    annotations_remark hdeviations]

section Events

variable {options : Options} {text : String}

/-- A note that sounds is written with its deviation, and with two ratios if it is not tempered. -/
theorem annotations_note {n : Note} (h : note options n = .ok text) (hsounds : n.isRest = false) :
    ∃ deviation, centDeviation options.referenceDivisions n = .ok deviation ∧
      annotations text = remarkCalls [deviation] ((factorsOf n.frequency).map fun factors =>
        ((splitLast factors).1, [(splitLast factors).2])) := by
  obtain ⟨template, htemplate, h⟩ := bind_eq_ok.mp h
  rw [if_neg (by rw [hsounds]; decide)] at h
  obtain ⟨deviation, hdeviation, h⟩ := bind_eq_ok.mp h
  obtain rfl := pure_eq_ok.mp h
  refine ⟨deviation, hdeviation, ?_⟩
  exact annotations_render (by decide) (quiet_spell _ _ _)
    (List.forall_mem_singleton.mpr (numeric_centDeviation hdeviation).quiet) _
    (noteValues_ne_nil htemplate)

/-- A chord is written with the deviations of its members, and with their ratios if none of them is
tempered. -/
theorem annotations_chord {notes : List Note} (h : chord options notes = .ok text)
    (hne : notes ≠ []) : ∃ deviations,
      (ascending notes).mapM (centDeviation options.referenceDivisions) = .ok deviations ∧
      annotations text = remarkCalls deviations
        (((ascending notes).mapM fun n => factorsOf n.frequency).map splitShared) := by
  obtain ⟨first, rest, rfl⟩ := List.exists_cons_of_ne_nil hne
  obtain ⟨template, htemplate, h⟩ := bind_eq_ok.mp h
  obtain ⟨deviations, hdeviations, h⟩ := bind_eq_ok.mp h
  obtain rfl := pure_eq_ok.mp h
  refine ⟨deviations, hdeviations, ?_⟩
  have hquiet : ∀ s ∈ deviations, Quiet s := by
    intro s hs
    obtain ⟨n, -, hn⟩ := exists_of_mem_of_mapM_eq_ok hdeviations hs
    exact (numeric_centDeviation hn).quiet
  have hnames : ∀ s ∈ (ascending (first :: rest)).map (spell options.f0 options.spelling),
      Quiet s := by
    rw [List.forall_mem_map]
    exact fun n _ => quiet_spell _ _ n
  have hbody : Quiet ("<" ++ " ".intercalate
      ((ascending (first :: rest)).map (spell options.f0 options.spelling)) ++ ">") :=
    ((by decide : Quiet "<").append
      (forall_mem_intercalate (by decide : Quiet " ") hnames)).append (by decide)
  exact annotations_render (by decide) hbody hquiet _ (noteValues_ne_nil htemplate)

/-- Wherever the members of a chord are written, their names stand in the same order. -/
theorem chordBodies_chord {notes : List Note} (h : chord options notes = .ok text)
    (hne : notes ≠ []) : chordBodies text ≠ [] ∧
      ∀ names ∈ chordBodies text, names = memberNames options notes := by
  obtain ⟨first, rest, rfl⟩ := List.exists_cons_of_ne_nil hne
  have hencloses : Encloses text (bodiesOf (writtenChords options (.chord (first :: rest)))) :=
    encloses_event h
  obtain ⟨template, htemplate, -⟩ := bind_eq_ok.mp h
  simp only [writtenChords, htemplate] at hencloses
  rw [chordBodies, hencloses.bodies_eq, words_bodiesOf]
  · refine ⟨?_, fun names => List.eq_of_mem_replicate⟩
    rw [ne_eq, List.replicate_eq_nil_iff, List.length_eq_zero_iff]
    exact noteValues_ne_nil htemplate
  · intro names hnames
    obtain rfl := List.eq_of_mem_replicate hnames
    exact memberNames_words options hne

end Events

/-! ### Ratios multiply back -/

/-- The calls have a deviation for each member, and two or more ratios: a base, and for each member
one that multiplies with it to the frequency of the member. -/
def MultipliesBack (members : List Note) (deviations : List String)
    (found : List (String × List String)) (base : ℚ) : Prop :=
  ∃ (first : String) (others : List String),
    found = [("cents", deviations), ("ratios", first :: others)] ∧
    rational? first.toList = some base ∧
    List.Forall₂ (fun n text => ∃ q, rational? text.toList = some q ∧
      n.frequency.value = .exact (base * q)) members others

theorem multipliesBack_remarkCalls {members : List Note} (deviations : List String)
    {base : ℚ} {others : List ℚ}
    (h : List.Forall₂ (fun n q => n.frequency.value = .exact (base * q)) members others) :
    MultipliesBack members deviations (remarkCalls deviations (some (base, others))) base := by
  refine ⟨rationalText base, others.map rationalText, rfl, rational?_rationalText base, ?_⟩
  rw [List.forall₂_map_right_iff]
  exact h.imp fun n q hq => ⟨q, rational?_rationalText q, hq⟩

/-- Members of which none is tempered are written with what they share and what is left of each. -/
theorem exists_splitShared_of_untempered {members : List Note} (hne : members ≠ [])
    (h : ∀ n ∈ members, ∀ p, n.frequency ≠ .power p) :
    ∃ shared others,
      (members.mapM fun n => factorsOf n.frequency).map splitShared = some (shared.prod, others) ∧
      IsLongestShared shared (members.map fun n => factorValues n.frequency) ∧
      List.Forall₂ (fun n q => n.frequency.value = .exact (shared.prod * q)) members others := by
  cases hfactors : members.mapM fun n => factorsOf n.frequency with
  | none =>
    obtain ⟨n, hn, hnone⟩ := mapM_eq_none.mp hfactors
    obtain ⟨p, hp⟩ := factorsOf_eq_none.mp hnone
    exact absurd hp (h n hn p)
  | some lists =>
    have hmembers := mapM_eq_some.mp hfactors
    have hvalues : members.map (fun n => factorValues n.frequency)
        = lists.map fun factors => factors.map Ratio.value :=
      map_eq_map_of_forall₂ (hmembers.imp fun _ _ => factorValues_of_factorsOf)
    have hlists : lists ≠ [] := by
      rintro rfl
      exact hne (List.forall₂_nil_right_iff.mp hmembers)
    obtain ⟨shared, hshared, hbase, hothers⟩ := exists_splitShared hlists
    rw [hbase] at hothers
    refine ⟨shared, (splitShared lists).2, ?_, by rw [hvalues]; exact hshared, ?_⟩
    · rw [Option.map_some, ← hbase]
    · refine (forall₂_comp hmembers hothers).imp ?_
      rintro n q ⟨factors, hn, hq⟩
      rw [hq, value_of_factorsOf hn]

/-- What the text of a note says: its deviation, and two ratios that multiply to its frequency
unless it is tempered. -/
structure AnnotatedNote (options : Options) (n : Note) (text deviation : String) : Prop where
  measured : centDeviation options.referenceDivisions n = .ok deviation
  untempered : (∀ p, n.frequency ≠ .power p) →
    ∃ base, MultipliesBack [n] [deviation] (annotations text) base
  tempered : (∃ p, n.frequency = .power p) → annotations text = [("cents", [deviation])]

theorem exists_annotatedNote {options : Options} {n : Note} {text : String}
    (h : note options n = .ok text) (hsounds : n.isRest = false) :
    ∃ deviation, AnnotatedNote options n text deviation := by
  obtain ⟨deviation, hdeviation, htext⟩ := annotations_note h hsounds
  refine ⟨deviation, hdeviation, ?_, ?_⟩
  · intro huntempered
    cases hfactors : factorsOf n.frequency with
    | none =>
      obtain ⟨p, hp⟩ := factorsOf_eq_none.mp hfactors
      exact absurd hp (huntempered p)
    | some factors =>
      rw [htext, hfactors]
      refine ⟨_, multipliesBack_remarkCalls [deviation] (.cons ?_ .nil)⟩
      rw [splitLast_mul, value_of_factorsOf hfactors]
  · intro htempered
    rw [htext, factorsOf_eq_none.mpr htempered]
    rfl

/-- What the text of a chord says of its members, in the order in which they are written: their
names, wherever they stand; their deviations; and ratios unless one of them is tempered.  The base
of the ratios is the product of the longest list of ratios that all members begin with. -/
structure AnnotatedChord (options : Options) (notes : List Note) (text : String)
    (members : List Note) (deviations : List String) : Prop where
  perm : members.Perm notes
  written : chordBodies text ≠ []
  names : ∀ names ∈ chordBodies text, names = members.map (spell options.f0 options.spelling)
  measured : List.Forall₂ (fun n deviation =>
    centDeviation options.referenceDivisions n = .ok deviation) members deviations
  untempered : (∀ n ∈ notes, ∀ p, n.frequency ≠ .power p) →
    ∃ shared, IsLongestShared shared (members.map fun n => factorValues n.frequency) ∧
      MultipliesBack members deviations (annotations text) shared.prod
  tempered : (∃ n ∈ notes, ∃ p, n.frequency = .power p) →
    annotations text = [("cents", deviations)]

theorem exists_annotatedChord {options : Options} {notes : List Note} {text : String}
    (h : chord options notes = .ok text) (hne : notes ≠ []) :
    ∃ members deviations, AnnotatedChord options notes text members deviations := by
  obtain ⟨deviations, hdeviations, htext⟩ := annotations_chord h hne
  obtain ⟨hbodies, hnames⟩ := chordBodies_chord h hne
  have hperm : (ascending notes).Perm notes := List.mergeSort_perm _ _
  have hmembers : ascending notes ≠ [] := by
    intro hnil
    rw [hnil] at hperm
    exact hne hperm.symm.eq_nil
  refine ⟨ascending notes, deviations, hperm, hbodies, hnames, mapM_eq_ok.mp hdeviations, ?_, ?_⟩
  · intro huntempered
    obtain ⟨shared, others, hsplit, hshared, hothers⟩ :=
      exists_splitShared_of_untempered hmembers
        fun n hn => huntempered n (hperm.mem_iff.mp hn)
    refine ⟨shared, hshared, ?_⟩
    rw [htext, hsplit]
    exact multipliesBack_remarkCalls deviations hothers
  · rintro ⟨n, hn, htempered⟩
    have hnone : (ascending notes).mapM (fun n => factorsOf n.frequency) = none :=
      mapM_eq_none.mpr ⟨n, hperm.mem_iff.mpr hn, factorsOf_eq_none.mpr htempered⟩
    rw [htext, hnone]
    rfl

/-- Notes and chords of durations that can be written are written.  What the text of a note that
sounds says multiplies back to its frequency, and what the text of a chord says multiplies back to
the frequencies of its members in the order of their names. -/
theorem annotations_of_written (options : Options) :
    (options.referenceDivisions ≠ 0 → ∀ n t, Template.ofDuration n.duration = .ok t →
      (∃ text, note options n = .ok text) ∧
      ∀ rest, ∃ text, chord options (n :: rest) = .ok text) ∧
    (∀ n text, note options n = .ok text → n.isRest = false →
      ∃ deviation, AnnotatedNote options n text deviation) ∧
    ∀ notes text, chord options notes = .ok text → notes ≠ [] →
      ∃ members deviations, AnnotatedChord options notes text members deviations := by
  refine ⟨fun hdivisions n t ht => ⟨exists_note hdivisions ht, fun rest => ?_⟩,
    fun n text => exists_annotatedNote, fun notes text => exists_annotatedChord⟩
  exact exists_chord hdivisions rest ht

/-- The third harmonic. -/
def twelfth : Note := ⟨.ratio (.ofInt 3), .one, .one⟩

/-- The fifth harmonic of the third. -/
def seventh : Note := ⟨.product ⟨[.ofInt 3, .ofInt 5]⟩, .one, .one⟩

/-- Nineteen equal semitones. -/
def temperedTwelfth : Note := ⟨.power ⟨2, 19, 12⟩, .one, .one⟩

/-- The seventh by itself, then above the twelfth, and then above the tempered one. -/
theorem annotations_of_written_sevenths : ({} : Options).referenceDivisions ≠ 0 ∧
    Template.ofDuration seventh.duration = .ok ⟨[4], none⟩ ∧ seventh.isRest = false ∧
    [seventh, twelfth] ≠ [] ∧ [seventh, temperedTwelfth] ≠ [] ∧
    ∃ text chordText temperedText, note {} seventh = .ok text ∧
      chord {} [seventh, twelfth] = .ok chordText ∧
      chord {} [seventh, temperedTwelfth] = .ok temperedText ∧
      (∃ deviation base, MultipliesBack [seventh] [deviation] (annotations text) base) ∧
      (∃ members deviations shared, members.Perm [seventh, twelfth] ∧
        IsLongestShared shared (members.map fun n => factorValues n.frequency) ∧
        MultipliesBack members deviations (annotations chordText) shared.prod) ∧
      ∃ deviations, annotations temperedText = [("cents", deviations)] := by
  have htemplate : Template.ofDuration seventh.duration = .ok ⟨[4], none⟩ :=
    eq_ok_of_toOption (by decide +kernel)
  have hdivisions : ({} : Options).referenceDivisions ≠ 0 := by decide
  have hsounds : seventh.isRest = false := by decide +kernel
  have hchord : [seventh, twelfth] ≠ [] := List.cons_ne_nil _ _
  have htempered : [seventh, temperedTwelfth] ≠ [] := List.cons_ne_nil _ _
  obtain ⟨hwritten, hnotes, hchords⟩ := annotations_of_written {}
  obtain ⟨⟨text, htext⟩, hall⟩ := hwritten hdivisions seventh _ htemplate
  obtain ⟨chordText, hchordText⟩ := hall [twelfth]
  obtain ⟨temperedText, htemperedText⟩ := hall [temperedTwelfth]
  obtain ⟨deviation, hnote⟩ := hnotes seventh text htext hsounds
  obtain ⟨members, deviations, hmembers⟩ := hchords _ chordText hchordText hchord
  obtain ⟨members', deviations', hnone⟩ := hchords _ temperedText htemperedText htempered
  obtain ⟨base, hbase⟩ := hnote.untempered (by simp [seventh])
  obtain ⟨shared, hshared, hback⟩ := hmembers.untempered (by simp [seventh, twelfth])
  exact ⟨hdivisions, htemplate, hsounds, hchord, htempered, text, chordText, temperedText, htext,
    hchordText, htemperedText, ⟨deviation, base, hbase⟩,
    ⟨members, deviations, shared, hmembers.perm, hshared, hback⟩,
    deviations', hnone.tempered ⟨temperedTwelfth, by simp, _, rfl⟩⟩

end JustIntonation.Score
