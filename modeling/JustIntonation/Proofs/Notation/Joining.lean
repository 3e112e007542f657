/-
JustIntonation/Proofs/Notation/Joining.lean

Texts one behind the other.

A text that was read falls into the texts of its parts, and each of these is
again read as its part wherever a part may stand (`PartText`).  So texts of
parts can be put together anew.  Joined by a `;` the parts of two texts stand
side by side; with white space between them the last part of the one and the
first of the other become one (`PartText.append`); and the text of a single
part in brackets is a group (`PartText.group`).

Main result: joining texts joins their music (`parse_joined`).
-/
import JustIntonation.Proofs.Notation.Evaluation
import JustIntonation.Proofs.Notation.Rereading

namespace JustIntonation.Notation

variable {es fs : List Expr} {cs ds : List Char}

/-! ### Texts of parts -/

/-- A row goes on with a part behind white space. -/
theorem Row.append_part {w : List Char} (h : Row es cs) (hfs : PartText fs ds) (hblank : Blank w)
    (hne : w ≠ []) : PartText (es ++ fs) (cs ++ (w ++ ds)) := by
  induction h with
  | nil =>
    obtain ⟨blank, row, hspace, hrow, rfl⟩ := hfs
    refine ⟨w ++ blank, row, List.forall_mem_append.mpr ⟨hblank, hspace⟩, hrow, ?_⟩
    rw [List.nil_append, List.append_assoc]
  | @cons e es cs blank others first starts space joint _ ih =>
    obtain ⟨blank', row, hspace, hrow, hothers⟩ := ih
    refine ⟨[], cs ++ (blank ++ blank' ++ row), nofun, ?_, ?_⟩
    · refine .cons first starts (List.forall_mem_append.mpr ⟨space, hspace⟩) ?_ hrow
      intro hnone hopen
      obtain ⟨rfl, rfl⟩ := List.append_eq_nil_iff.mp hnone
      rw [List.nil_append] at hothers
      rw [← hothers]
      cases others with
      | nil => exact (EndsItem.of_blank hblank hne ds).noDigit
      | cons x others => exact joint rfl hopen
    · simp only [List.append_assoc, List.nil_append, hothers]

/-- With white space between them two parts are one. -/
theorem PartText.append {w : List Char} (hes : PartText es cs) (hfs : PartText fs ds)
    (hblank : Blank w) (hne : w ≠ []) : PartText (es ++ fs) (cs ++ (w ++ ds)) := by
  obtain ⟨blank, row, hspace, hrow, rfl⟩ := hes
  obtain ⟨blank', row', hspace', hrow', hboth⟩ := hrow.append_part hfs hblank hne
  refine ⟨blank ++ blank', row', List.forall_mem_append.mpr ⟨hspace, hspace'⟩, hrow', ?_⟩
  rw [List.append_assoc, hboth, List.append_assoc]

/-- In brackets a part is a group. -/
theorem PartText.group (h : PartText es cs) : PartText [.group es] ('(' :: (cs ++ [')'])) := by
  have hgroup := atomStands_group h
  exact ⟨[], _, nofun, .single hgroup.stands_alone hgroup.starts, rfl⟩

/-! ### Music of joined texts -/

/-- How a text was read that denotes a piece: its parts, and the text of each of them. -/
structure Reading (source : String) (piece : Piece) (parts : List (List Expr))
    (texts : List (List Char)) : Prop where
  nonempty : parts ≠ []
  partTexts : List.Forall₂ PartText parts texts
  written : source.toList = [';'].intercalate texts
  evaluable : (Tree.mk parts).Evaluable
  meaning : piece = (Tree.mk parts).meaning

section Joining

variable {a b : String} {p q : Piece} {parts parts' : List (List Expr)}
  {texts texts' : List (List Char)}

theorem exists_reading (h : Piece.parse a = .ok p) : ∃ parts texts, Reading a p parts texts := by
  obtain ⟨t, ht, hpiece⟩ := parse_eq_ok.mp h
  obtain ⟨hevaluable, hmeaning⟩ := piece_eq_ok.mp hpiece
  obtain ⟨hne, texts, htexts, hsource⟩ := exists_partTexts_of_parse ht
  exact ⟨t.parts, texts, hne, htexts, hsource, hevaluable, hmeaning⟩

theorem Reading.parse (h : Reading a p parts texts) :
    Piece.parse a = .ok p := by
  obtain ⟨t, ht, hbare⟩ := parse_of_partTexts h.nonempty h.partTexts h.written
  have hpiece : (Tree.mk parts).piece a = .ok p := piece_eq_ok.mpr ⟨h.evaluable, h.meaning⟩
  exact parse_eq_ok.mpr ⟨t, ht, piece_eq_ok_of_bare hbare hpiece⟩

/-- Joined texts around one of them. -/
theorem intercalate_append_cons (x : Char) (before : List (List Char)) (mid : List Char)
    (after : List (List Char)) :
    [x].intercalate (before ++ mid :: after)
      = before.flatMap (· ++ [x]) ++ (mid ++ after.flatMap (x :: ·)) := by
  induction before with
  | nil => exact intercalate_cons x mid after
  | cons first before ih =>
    obtain ⟨second, others, hothers⟩ := List.exists_cons_of_ne_nil
      (List.append_ne_nil_of_right_ne_nil before (List.cons_ne_nil mid after))
    rw [List.cons_append, hothers, List.intercalate_cons_cons, ← hothers, ih]
    simp

/-- Related lists that are not empty end with related things. -/
theorem exists_concat_of_forall₂ {r : α → β → Prop} {xs : List α} {ys : List β}
    (h : List.Forall₂ r xs ys) (hne : xs ≠ []) : ∃ xs' x ys' y, xs = xs' ++ [x] ∧
      ys = ys' ++ [y] ∧ List.Forall₂ r xs' ys' ∧ r x y := by
  induction h with
  | nil => exact absurd rfl hne
  | @cons x y xs ys hxy hrest ih =>
    cases hrest with
    | nil => exact ⟨[], x, [], y, rfl, rfl, .nil, hxy⟩
    | cons _ _ =>
      obtain ⟨xs', x', ys', y', hxs, hys, hbefore, hlast⟩ := ih (List.cons_ne_nil _ _)
      refine ⟨x :: xs', x', y :: ys', y', ?_, ?_, .cons hxy hbefore, hlast⟩
      · rw [hxs, List.cons_append]
      · rw [hys, List.cons_append]

/-- The parts of a tree in a piece. -/
def partOf (items : List Expr) : Part := ⟨(Expr.sequenceSites [] [] items).map Site.event⟩

theorem partOf_append (items others : List Expr) :
    partOf (items ++ others) = ⟨(partOf items).events ++ (partOf others).events⟩ := by
  rw [partOf, partOf, partOf, Expr.sequenceSites_append, List.map_append]

theorem Reading.parts_eq (h : Reading a p parts texts) : p.parts = parts.map partOf := by
  rw [h.meaning]
  rfl

/-- Joined by a `;`, the parts of two texts stand side by side. -/
theorem Reading.beside (hp : Reading a p parts texts) (hq : Reading b q parts' texts') :
    Reading (a ++ ";" ++ b) ⟨p.parts ++ q.parts⟩ (parts ++ parts') (texts ++ texts') where
  nonempty := List.append_ne_nil_of_left_ne_nil hp.nonempty parts'
  partTexts := List.rel_append hp.partTexts hq.partTexts
  written := by
    obtain ⟨before, es, befores, text, -, rfl, -⟩ :=
      exists_concat_of_forall₂ hp.partTexts hp.nonempty
    cases hq.partTexts with
    | nil => exact absurd rfl hq.nonempty
    | @cons _ text' _ afters =>
      have hboth := intercalate_append_cons ';' befores text (text' :: afters)
      have ha := intercalate_append_cons ';' befores text []
      have hb := intercalate_cons ';' text' afters
      rw [String.toList_append, String.toList_append, hp.written, hq.written,
        List.append_assoc befores, List.singleton_append, hboth, ha, hb]
      simp
  evaluable := by
    rw [Tree.Evaluable, Tree.products, List.flatMap_append]
    exact List.forall_mem_append.mpr ⟨hp.evaluable, hq.evaluable⟩
  meaning := by
    rw [hp.parts_eq, hq.parts_eq, ← List.map_append]
    rfl

/-- With white space between them, the last part of one text and the first of the other are
one. -/
theorem Reading.together (hp : Reading a p parts texts)
    (hq : Reading b q parts' texts') {w : String} (hblank : Blank w.toList) (hne : w ≠ "") :
    ∃ ps last first qs, p.parts = ps ++ [last] ∧ q.parts = first :: qs ∧ ∃ parts texts,
      Reading (a ++ w ++ b) ⟨ps ++ ⟨last.events ++ first.events⟩ :: qs⟩ parts texts := by
  obtain ⟨before, es, befores, text, rfl, rfl, hbefore, htext⟩ :=
    exists_concat_of_forall₂ hp.partTexts hp.nonempty
  have hqs := hq.partTexts
  cases hqs with
  | nil => exact absurd rfl hq.nonempty
  | @cons fs text' after afters htext' hafter =>
    have hpparts := hp.parts_eq
    have hqparts := hq.parts_eq
    rw [List.map_append, List.map_singleton] at hpparts
    rw [List.map_cons] at hqparts
    refine ⟨_, _, _, _, hpparts, hqparts, before ++ (es ++ fs) :: after,
      befores ++ (text ++ (w.toList ++ text')) :: afters, ?_, ?_, ?_, ?_, ?_⟩
    · exact List.append_ne_nil_of_right_ne_nil _ (List.cons_ne_nil _ _)
    · have hw : w.toList ≠ [] := by
        intro h
        exact hne (String.toList_eq_nil_iff.mp h)
      exact List.rel_append hbefore (.cons (htext.append htext' hblank hw) hafter)
    · rw [String.toList_append, String.toList_append, hp.written, hq.written,
        intercalate_append_cons, intercalate_append_cons, intercalate_cons]
      simp
    · have ha := hp.evaluable
      have hb := hq.evaluable
      simp only [Tree.Evaluable, Tree.products, List.flatMap_append, List.flatMap_cons,
        List.flatMap_nil, List.append_nil, List.forall_mem_append,
        Expr.sequenceProducts_eq_flatMap] at ha hb ⊢
      exact ⟨ha.1, ⟨ha.2, hb.1⟩, hb.2⟩
    · rw [Piece.mk.injEq, ← partOf_append]
      show _ = (before ++ (es ++ fs) :: after).map partOf
      rw [List.map_append, List.map_cons]

/-- A text without a `;` is a single part. -/
theorem Reading.single (h : Reading a p parts texts) (hnone : ';' ∉ a.toList) :
    ∃ es text, parts = [es] ∧ texts = [text] := by
  have hparts := h.partTexts
  cases hparts with
  | nil => exact absurd rfl h.nonempty
  | @cons es text others others' _ hothers =>
    cases hothers with
    | nil => exact ⟨es, text, rfl, rfl⟩
    | cons _ _ =>
      -- The sign before a second part would stand in the text.
      rw [h.written, intercalate_cons] at hnone
      simp at hnone

/-- In brackets, the one part of a text is a group. -/
theorem Reading.grouped {es : List Expr} {text : List Char}
    (h : Reading a p [es] [text]) :
    Reading ("(" ++ a ++ ")") p [[.group es]] ['(' :: (text ++ [')'])] where
  nonempty := List.cons_ne_nil _ _
  partTexts := by
    cases h.partTexts with
    | cons htext _ => exact .cons htext.group .nil
  written := by
    rw [String.toList_append, String.toList_append, h.written]
    simp
  evaluable := by
    have hevaluable := h.evaluable
    simpa [Tree.Evaluable, Tree.products, Expr.sequenceProducts, Expr.products] using hevaluable
  meaning := by
    rw [h.meaning]
    simp [Tree.meaning, Expr.sequenceSites, Expr.sites]

/-- Joining texts joins their music.  Joined by a `;` the parts of two texts that are accepted
stand side by side; with white space between them the last part of the one goes on with the first
part of the other; and a text without a `;` is the same music in brackets. -/
theorem parse_joined (ha : Piece.parse a = .ok p) :
    (∀ b q, Piece.parse b = .ok q →
      Piece.parse (a ++ ";" ++ b) = .ok ⟨p.parts ++ q.parts⟩ ∧
      ∀ w : String, w ≠ "" → Blank w.toList → ∃ ps last first qs,
        p.parts = ps ++ [last] ∧ q.parts = first :: qs ∧
        Piece.parse (a ++ w ++ b) = .ok ⟨ps ++ ⟨last.events ++ first.events⟩ :: qs⟩) ∧
    (';' ∉ a.toList → Piece.parse ("(" ++ a ++ ")") = .ok p) := by
  obtain ⟨parts, texts, hp⟩ := exists_reading ha
  refine ⟨fun b q hb => ?_, fun hnone => ?_⟩
  · obtain ⟨_, _, hq⟩ := exists_reading hb
    refine ⟨(hp.beside hq).parse, fun w hne hblank => ?_⟩
    obtain ⟨ps, last, first, qs, hps, hqs, _, _, hboth⟩ := hp.together hq hblank hne
    exact ⟨ps, last, first, qs, hps, hqs, hboth.parse⟩
  · obtain ⟨es, text, rfl, rfl⟩ := hp.single hnone
    exact hp.grouped.parse

/-- Items without white space between them, behind the last of which a digit or a `*` would be
read otherwise, in front of an empty part. -/
theorem parse_joined_gapless : ∃ p q, Piece.parse "2*(1:1)3:5" = .ok p ∧
    Piece.parse "7:1**1/2;" = .ok q ∧
    Piece.parse ("2*(1:1)3:5" ++ ";" ++ "7:1**1/2;") = .ok ⟨p.parts ++ q.parts⟩ ∧
    (∃ ps last first qs, p.parts = ps ++ [last] ∧ q.parts = first :: qs ∧
      Piece.parse ("2*(1:1)3:5" ++ "\t" ++ "7:1**1/2;")
        = .ok ⟨ps ++ ⟨last.events ++ first.events⟩ :: qs⟩) ∧
    Piece.parse ("(" ++ "2*(1:1)3:5" ++ ")") = .ok p := by
  have hp : (Piece.parse "2*(1:1)3:5").isOk = true := by decide +kernel
  have hq : (Piece.parse "7:1**1/2;").isOk = true := by decide +kernel
  obtain ⟨p, hp⟩ := exists_eq_ok hp
  obtain ⟨q, hq⟩ := exists_eq_ok hq
  obtain ⟨hjoined, hgroup⟩ := parse_joined hp
  obtain ⟨hbeside, htogether⟩ := hjoined _ q hq
  have hblank : Blank "\t".toList := List.forall_mem_singleton.mpr (.inr (.inl rfl))
  exact ⟨p, q, hp, hq, hbeside, htogether "\t" (by decide) hblank, hgroup (by decide)⟩

end Joining

end JustIntonation.Notation
