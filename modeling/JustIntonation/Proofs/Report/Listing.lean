/-
JustIntonation/Proofs/Report/Listing.lean

The listing of a piece determines its notes.

What is listed is compared from the front, whatever stands behind it: if one
text begins with two notes as they are listed, these are the same notes and
end at the same place (`Determined`).  Numbers have no comma and no closing
parenthesis, so each field of a note ends where the next begins.  The members
of a block are indented deeper than its last line, so a block ends where its
members end.

Main result: `sameShape_of_listing_eq`.
-/
import JustIntonation.Proofs.Binary64.Format
import JustIntonation.Proofs.Notation.Image
import JustIntonation.Proofs.Number.Order
import JustIntonation.Proofs.Temperament.Frame
import JustIntonation.Proofs.Text.Numbers

namespace JustIntonation

open Text

/-! ### Quantities -/

theorem eq_of_toList_toString {m n : ℤ} (h : (toString m).toList = (toString n).toList) :
    m = n := by
  have hread := congrArg integer? h
  rwa [integer?_toString, integer?_toString, Option.some.injEq] at hread

/-- The text of a ratio has nothing in it but digits, minus signs and a stroke. -/
theorem Ratio.not_mem_text {c : Char} (hdigit : c.isDigit = false) (hminus : c ≠ '-')
    (hstroke : c ≠ '/') (r : Ratio) : c ∉ r.text.toList := by
  have hnumber := not_mem_toString hdigit hminus
  rw [text]
  split_ifs
  · exact hnumber r.num
  · rw [String.toList_append, String.toList_append, List.mem_append, List.mem_append]
    rintro ((h | h) | h)
    · exact hnumber r.num h
    · exact hstroke (List.mem_singleton.mp h)
    · exact hnumber r.den h

theorem splitOn_fraction (n d : ℤ) :
    (toString n ++ "/" ++ toString d).toList.splitOn '/'
      = [(toString n).toList, (toString d).toList] := by
  have hstroke : ∀ n : ℤ, '/' ∉ (toString n).toList := not_mem_toString rfl (by decide)
  have htext : (toString n ++ "/" ++ toString d).toList
      = (toString n).toList ++ '/' :: (toString d).toList := by
    rw [String.toList_append, String.toList_append, List.append_assoc]
    rfl
  rw [htext, List.splitOn_append_cons_self_of_not_mem (hstroke n),
    List.splitOn_eq_singleton (hstroke d)]

theorem Ratio.text_injective : Function.Injective Ratio.text := by
  have hstroke : ∀ n : ℤ, '/' ∉ (toString n).toList := not_mem_toString rfl (by decide)
  have hsplit : ∀ r : Ratio, r.text.toList.splitOn '/' =
      if r.den = 1 then [(toString r.num).toList]
      else [(toString r.num).toList, (toString r.den).toList] := by
    intro r
    rw [text]
    split_ifs
    · exact List.splitOn_eq_singleton (hstroke r.num)
    · exact splitOn_fraction r.num r.den
  rintro ⟨n, d, hd⟩ ⟨n', d', hd'⟩ h
  have hpieces := congrArg (fun s : String => s.toList.splitOn '/') h
  simp only [hsplit] at hpieces
  obtain ⟨rfl, rfl⟩ : n = n' ∧ d = d' := by
    split_ifs at hpieces with hone hone'
    · obtain ⟨hnum, -⟩ := List.cons.inj hpieces
      exact ⟨eq_of_toList_toString hnum, hone.trans hone'.symm⟩
    · cases (List.cons.inj hpieces).2
    · cases (List.cons.inj hpieces).2
    · obtain ⟨hnum, hrest⟩ := List.cons.inj hpieces
      obtain ⟨hden, -⟩ := List.cons.inj hrest
      exact ⟨eq_of_toList_toString hnum, eq_of_toList_toString hden⟩
  rfl

theorem Ratio.text_ne_nil (r : Ratio) : r.text.toList ≠ [] := by
  have hnum : (toString r.num).toList ≠ [] := by
    intro hnil
    have hread := integer?_toString r.num
    rw [hnil] at hread
    cases hread
  rw [text]
  split_ifs
  · exact hnum
  · rw [String.toList_append, String.toList_append]
    exact List.append_ne_nil_of_left_ne_nil (List.append_ne_nil_of_left_ne_nil hnum _) _

theorem Product.splitOn_text {p : Product} (h : p.factors ≠ []) :
    p.text.toList.splitOn '*' = p.factors.map fun r => r.text.toList := by
  have hstar : ∀ r : Ratio, '*' ∉ r.text.toList :=
    Ratio.not_mem_text rfl (by decide) (by decide)
  rw [text, String.toList_intercalate, List.map_map]
  exact List.splitOn_intercalate '*' (List.forall_mem_map.mpr fun r _ => hstar r)
    (mt List.map_eq_nil_iff.mp h)

theorem Product.eq_of_text_eq {p p' : Product} (hp : p.factors ≠ []) (hp' : p'.factors ≠ [])
    (h : p.text = p'.text) : p = p' := by
  have hinjective : Function.Injective fun r : Ratio => r.text.toList :=
    fun r r' hr => Ratio.text_injective (String.toList_injective hr)
  have hfactors := congrArg (fun s : String => s.toList.splitOn '*') h
  simp only [splitOn_text hp, splitOn_text hp'] at hfactors
  exact congrArg Product.mk (List.map_injective_iff.mpr hinjective hfactors)

theorem Power.splitOn_text (p : Power) : p.text.toList.splitOn '*'
    = [(toString p.base).toList, [], (toString p.steps ++ "/" ++ toString p.divisions).toList] := by
  have hstar : ∀ n : ℤ, '*' ∉ (toString n).toList := not_mem_toString rfl (by decide)
  have hexponent : '*' ∉ (toString p.steps ++ "/" ++ toString p.divisions).toList := by
    simp only [String.toList_append, List.mem_append, not_or]
    exact ⟨⟨hstar _, by decide⟩, hstar _⟩
  have htext : p.text.toList = (toString p.base).toList ++ '*' :: ([] ++ '*' ::
      (toString p.steps ++ "/" ++ toString p.divisions).toList) := by
    simp only [Power.text, String.toList_append, List.append_assoc]
    rfl
  rw [htext, List.splitOn_append_cons_self_of_not_mem (hstar _),
    List.splitOn_append_cons_self_of_not_mem List.not_mem_nil,
    List.splitOn_eq_singleton hexponent]

theorem Power.text_injective : Function.Injective Power.text := by
  rintro ⟨base, steps, divisions⟩ ⟨base', steps', divisions'⟩ h
  have hpieces := congrArg (fun s : String => s.toList.splitOn '*') h
  simp only [splitOn_text, List.cons.injEq, and_true, true_and] at hpieces
  obtain ⟨hbase, hexponent⟩ := hpieces
  have hterms := congrArg (List.splitOn '/') hexponent
  rw [splitOn_fraction, splitOn_fraction] at hterms
  simp only [List.cons.injEq, and_true] at hterms
  rw [eq_of_toList_toString hbase, eq_of_toList_toString hterms.1, eq_of_toList_toString hterms.2]

/-- The stars of a power are not those of a product. -/
theorem Product.text_ne_power_text {p : Product} (h : p.factors ≠ []) (x : Power) :
    p.text ≠ x.text := by
  intro hsame
  have hpieces := congrArg (fun s : String => s.toList.splitOn '*') hsame
  simp only [splitOn_text h, Power.splitOn_text] at hpieces
  have hnil : [] ∈ p.factors.map fun r => r.text.toList := by
    rw [hpieces]
    exact List.mem_cons_of_mem _ List.mem_cons_self
  obtain ⟨r, -, hr⟩ := List.mem_map.mp hnil
  exact r.text_ne_nil hr

/-- A product of at least one ratio, or a power. -/
def Quantity.IsListed : Quantity → Prop
  | .ratio _ => False
  | .product p => p.factors ≠ []
  | .power _ => True

/-- Such quantities are determined by their texts. -/
theorem Quantity.eq_of_text_eq {q q' : Quantity} (hq : q.IsListed) (hq' : q'.IsListed)
    (h : q.text = q'.text) : q = q' := by
  cases q with
  | ratio => cases hq
  | product p =>
    cases q' with
    | ratio => cases hq'
    | product p' => exact congrArg product (Product.eq_of_text_eq hq hq' h)
    | power x => exact absurd h (Product.text_ne_power_text hq x)
  | power x =>
    cases q' with
    | ratio => cases hq'
    | product p => exact absurd h.symm (Product.text_ne_power_text hq' x)
    | power x' => exact congrArg power (Power.text_injective h)

/-- The text of a quantity has nothing in it but digits and signs. -/
theorem Quantity.not_mem_text {c : Char} (hdigit : c.isDigit = false) (hminus : c ≠ '-')
    (hstroke : c ≠ '/') (hstar : c ≠ '*') (q : Quantity) : c ∉ q.text.toList := by
  have hratio := Ratio.not_mem_text hdigit hminus hstroke
  have hnumber := not_mem_toString hdigit hminus
  cases q with
  | ratio r => exact hratio r
  | product p =>
    intro hmem
    refine forall_mem_intercalate (p := (· ≠ c)) ?_ ?_ c hmem rfl
    · exact List.forall_mem_singleton.mpr hstar.symm
    · rw [List.forall_mem_map]
      rintro r - _ hc rfl
      exact hratio r hc
  | power x =>
    simp only [text, Power.text, String.toList_append, List.mem_append, not_or]
    refine ⟨⟨⟨⟨hnumber _, ?_⟩, hnumber _⟩, ?_⟩, hnumber _⟩
    · exact fun hc => hstar (by simpa using hc)
    · exact fun hc => hstroke (by simpa using hc)

/-! ### Notes -/

/-- A note whose quantities are determined by their texts; its volume may be the plain ratio one,
which is not listed. -/
structure Note.IsListed (n : Note) : Prop where
  frequency : n.frequency.IsListed
  duration : n.duration.IsListed
  volume : n.volume = .one ∨ ∃ p : Product, n.volume = .product p ∧ p.factors ≠ []

/-- Notes of one frequency and one duration, each of them written alike, whose volumes are equal
in value. -/
structure Note.SameListed (n m : Note) : Prop where
  frequency : n.frequency = m.frequency
  duration : n.duration = m.duration
  volume : n.volume.value = m.volume.value

namespace Report

/-- A text that begins with what is printed of a thing determines the thing, up to a relation, and
where the print ends. -/
def Determined {α : Type} (p : α → Prop) (print : α → String) (r : α → α → Prop) : Prop :=
  ∀ ⦃a b : α⦄, p a → p b → ∀ ⦃u v : List Char⦄,
    (print a).toList ++ u = (print b).toList ++ v → r a b ∧ u = v

/-- A character that ends no field of a note. -/
def isInside (c : Char) : Bool := c ≠ ',' && c ≠ ')'

/-- A field ends where the first character stands that ends it. -/
theorem append_inj_of_isInside {xs ys u v : List Char} (hxs : ∀ c ∈ xs, isInside c = true)
    (hys : ∀ c ∈ ys, isInside c = true) (hu : ∀ c ∈ u.head?, isInside c = false)
    (hv : ∀ c ∈ v.head?, isInside c = false) (h : xs ++ u = ys ++ v) : xs = ys ∧ u = v := by
  obtain ⟨hxs, hu⟩ := takeWhile_append_of_all hxs hu
  obtain ⟨hys, hv⟩ := takeWhile_append_of_all hys hv
  rw [h] at hxs hu
  exact ⟨hxs.symm.trans hys, hu.symm.trans hv⟩

theorem isInside_of_not_mem {cs : List Char} (hcomma : ',' ∉ cs) (hclose : ')' ∉ cs) :
    ∀ c ∈ cs, isInside c = true := by
  intro c hc
  rw [isInside, Bool.and_eq_true, decide_eq_true_iff, decide_eq_true_iff]
  constructor
  · rintro rfl
    exact hcomma hc
  · rintro rfl
    exact hclose hc

theorem isInside_text (q : Quantity) : ∀ c ∈ q.text.toList, isInside c = true :=
  isInside_of_not_mem (q.not_mem_text rfl (by decide) (by decide) (by decide))
    (q.not_mem_text rfl (by decide) (by decide) (by decide))

theorem isInside_centsText (n : Note) : ∀ c ∈ (centsText n).toList, isInside c = true := by
  have hnumber : ∀ c ∈ (centsText n).toList, IsNumberChar c := by
    rw [centsText]
    cases n.cents with
    | none => exact (List.all_iff_forall_prop.mp (by decide) : ∀ c ∈ "nan".toList, IsNumberChar c)
    | some cents => exact Binary64.isNumberChar_format _ _
  exact isInside_of_not_mem (fun hmem => not_isNumberChar rfl (by decide) (hnumber _ hmem))
    (fun hmem => not_isNumberChar rfl (by decide) (hnumber _ hmem))

/-- The volume of a note as it is listed. -/
def volumeText (n : Note) : String :=
  if n.volume.value.same .one then "" else ", volume=" ++ n.volume.text

theorem noteText_eq (n : Note) : noteText n = "Note(frequency=" ++ n.frequency.text ++ ", cents="
    ++ centsText n ++ ", duration=" ++ n.duration.text ++ volumeText n ++ ")" := rfl

theorem toList_noteLine (level : ℕ) (n : Note) :
    (noteLine level n).toList = List.replicate (2 * level) ' ' ++ ("Note(frequency=".toList
      ++ (n.frequency.text.toList ++ (", cents=".toList ++ ((centsText n).toList
      ++ (", duration=".toList ++ (n.duration.text.toList ++ ((volumeText n).toList
      ++ (')' :: ",\n".toList)))))))) := by
  have hclose : ")".toList = [')'] := rfl
  rw [noteLine, noteText_eq]
  simp only [String.toList_append, toList_spaces, List.append_assoc, hclose, List.singleton_append]

theorem same_one_iff {q : ℚ} : (Number.exact q).same .one = true ↔ q = 1 :=
  Number.same_iff.trans Number.place_exact_inj

/-- A volume that is left out is one, and one that is listed is a product. -/
theorem volumeText_cases {n : Note} (h : n.IsListed) :
    ((volumeText n).toList = [] ∧ n.volume.value = .exact 1) ∨
      (n.volume.IsListed ∧
        (volumeText n).toList = ", volume=".toList ++ n.volume.text.toList) := by
  rw [volumeText]
  obtain hone | ⟨p, hvolume, hp⟩ := h.volume
  · have hvalue : n.volume.value = .exact 1 := by
      rw [hone]
      decide
    rw [if_pos (by rw [hvalue]; exact same_one_iff.mpr rfl)]
    exact .inl ⟨rfl, hvalue⟩
  · have hvalue : n.volume.value = .exact p.value := by rw [hvolume]; rfl
    rw [hvalue]
    split_ifs with hone
    · exact .inl ⟨rfl, by rw [same_one_iff.mp hone]⟩
    · refine .inr ⟨?_, String.toList_append⟩
      rw [hvolume]
      exact hp

/-- Volumes that are listed alike have one value. -/
theorem volume_eq_of_append_eq {n m : Note} (hn : n.IsListed) (hm : m.IsListed) {u v : List Char}
    (h : (volumeText n).toList ++ ')' :: u = (volumeText m).toList ++ ')' :: v) :
    n.volume.value = m.volume.value ∧ u = v := by
  have hclose : ∀ w : List Char, ∀ c ∈ (')' :: w).head?, isInside c = false := by
    rintro w _ ⟨⟩
    decide
  obtain ⟨htext, hvalue⟩ | ⟨hvolume, htext⟩ := volumeText_cases hn <;>
    obtain ⟨htext', hvalue'⟩ | ⟨hvolume', htext'⟩ := volumeText_cases hm <;>
    rw [htext, htext'] at h
  · exact ⟨hvalue.trans hvalue'.symm, (List.cons.inj h).2⟩
  · have hhead : some ')' = some ',' := congrArg List.head? h
    cases hhead
  · have hhead : some ',' = some ')' := congrArg List.head? h
    cases hhead
  · rw [List.append_assoc, List.append_assoc] at h
    obtain ⟨hsame, hrest⟩ := append_inj_of_isInside (isInside_text _) (isInside_text _)
      (hclose u) (hclose v) (List.append_cancel_left h)
    rw [Quantity.eq_of_text_eq hvolume hvolume' (String.toList_injective hsame)]
    exact ⟨rfl, (List.cons.inj hrest).2⟩

/-- The volume of a note begins as no field goes on. -/
theorem head?_volumeText_append (n : Note) (u : List Char) :
    ∀ c ∈ ((volumeText n).toList ++ ')' :: u).head?, isInside c = false := by
  rw [volumeText]
  split_ifs
  · rintro _ ⟨⟩
    decide
  · rw [String.toList_append]
    rintro _ ⟨⟩
    decide

theorem determined_noteLine (level : ℕ) :
    Determined Note.IsListed (noteLine level) Note.SameListed := by
  intro n m hn hm u v h
  have hcomma : ∀ name rest : List Char, ∀ c ∈ (',' :: name ++ rest).head?, isInside c = false := by
    rintro name rest _ ⟨⟩
    decide
  simp only [toList_noteLine, List.append_assoc, List.cons_append] at h
  obtain ⟨hfrequency, h⟩ := append_inj_of_isInside (isInside_text _) (isInside_text _)
    (hcomma _ _) (hcomma _ _) (List.append_cancel_left (List.append_cancel_left h))
  obtain ⟨-, h⟩ := append_inj_of_isInside (isInside_centsText n) (isInside_centsText m)
    (hcomma _ _) (hcomma _ _) (List.append_cancel_left h)
  obtain ⟨hduration, h⟩ := append_inj_of_isInside (isInside_text _) (isInside_text _)
    (head?_volumeText_append n _) (head?_volumeText_append m _) (List.append_cancel_left h)
  obtain ⟨hvolume, h⟩ := volume_eq_of_append_eq hn hm h
  exact ⟨⟨Quantity.eq_of_text_eq hn.frequency hm.frequency (String.toList_injective hfrequency),
    Quantity.eq_of_text_eq hn.duration hm.duration (String.toList_injective hduration), hvolume⟩,
    List.append_cancel_left h⟩

/-! ### Blocks -/

/-- A text that begins with so many blanks and goes on with something else. -/
def Indented (level : ℕ) (s : String) : Prop :=
  ∃ rest, s.toList = List.replicate (2 * level) ' ' ++ rest

theorem toList_block (level : ℕ) (opening closing : String) (members : List String) :
    (block level opening closing members).toList = List.replicate (2 * level) ' '
      ++ (opening.toList ++ ('\n' :: (members.flatMap String.toList
      ++ (List.replicate (2 * level) ' ' ++ (closing.toList ++ ",\n".toList))))) := by
  simp only [block, String.toList_append, toList_spaces, List.append_assoc, String.toList_join]
  rfl

section Blocks

variable {α : Type} {p : α → Prop} {print : α → String} {r : α → α → Prop} {level : ℕ}

/-- A line that goes on behind less indentation is not the beginning of a deeper text. -/
theorem not_indented {s : String} (h : Indented (level + 1) s) {c : Char} (hc : c ≠ ' ')
    (cs ds : List Char) : List.replicate (2 * level) ' ' ++ c :: cs ≠ s.toList ++ ds := by
  obtain ⟨rest, hrest⟩ := h
  intro hsame
  rw [hrest, Nat.mul_succ, List.replicate_add, List.append_assoc, List.append_assoc] at hsame
  exact hc (List.cons.inj (List.append_cancel_left hsame)).1

/-- The members of a block end where a line is indented less. -/
theorem determined_members (h : Determined p print r)
    (hindent : ∀ a, Indented (level + 1) (print a)) {c : Char} (hc : c ≠ ' ') {u v : List Char} :
    ∀ {as bs : List α}, (∀ a ∈ as, p a) → (∀ b ∈ bs, p b) →
      (as.map print).flatMap String.toList ++ (List.replicate (2 * level) ' ' ++ c :: u)
        = (bs.map print).flatMap String.toList ++ (List.replicate (2 * level) ' ' ++ c :: v) →
      List.Forall₂ r as bs ∧ u = v := by
  intro as
  induction as with
  | nil =>
    intro bs _ _ hsame
    cases bs with
    | nil =>
      have hrest := List.append_cancel_left hsame
      exact ⟨.nil, (List.cons.inj (List.append_cancel_left hrest)).2⟩
    | cons b bs =>
      rw [List.map_cons, List.flatMap_cons, List.append_assoc] at hsame
      exact absurd hsame (not_indented (hindent b) hc _ _)
  | cons a as ih =>
    intro bs has hbs hsame
    obtain ⟨ha, has⟩ := List.forall_mem_cons.mp has
    rw [List.map_cons, List.flatMap_cons, List.append_assoc] at hsame
    cases bs with
    | nil => exact absurd hsame.symm (not_indented (hindent a) hc _ _)
    | cons b bs =>
      obtain ⟨hb, hbs⟩ := List.forall_mem_cons.mp hbs
      rw [List.map_cons, List.flatMap_cons, List.append_assoc] at hsame
      obtain ⟨hab, hrest⟩ := h ha hb hsame
      obtain ⟨hmembers, huv⟩ := ih has hbs hrest
      exact ⟨.cons hab hmembers, huv⟩

/-- If the members of a block are determined, so is the block. -/
theorem determined_block (h : Determined p print r)
    (hindent : ∀ a, Indented (level + 1) (print a)) (opening : String) {closing : String}
    {c : Char} (hclosing : closing.toList = [c]) (hc : c ≠ ' ') :
    Determined (fun as => ∀ a ∈ as, p a) (fun as => block level opening closing (as.map print))
      (List.Forall₂ r) := by
  intro as bs has hbs u v hsame
  simp only [toList_block, hclosing, List.append_assoc, List.cons_append, List.nil_append] at hsame
  have hrest := (List.cons.inj (List.append_cancel_left (List.append_cancel_left hsame))).2
  obtain ⟨hmembers, huv⟩ := determined_members h hindent hc has hbs hrest
  exact ⟨hmembers, List.append_cancel_left huv⟩

end Blocks

theorem indented_block (level : ℕ) (opening closing : String) (members : List String) :
    Indented level (block level opening closing members) := ⟨_, toList_block ..⟩

theorem indented_noteLine (level : ℕ) (n : Note) : Indented level (noteLine level n) :=
  ⟨_, toList_noteLine level n⟩

/-! ### Levels -/

theorem indented_eventLines (level : ℕ) (e : Event) : Indented level (eventLines level e) := by
  cases e with
  | note n => exact indented_noteLine level n
  | chord notes => exact indented_block ..

theorem indented_partLines (level : ℕ) (p : Part) : Indented level (partLines level p) :=
  indented_block ..

theorem determined_chordLines (level : ℕ) :
    Determined (fun notes => ∀ n ∈ notes, n.IsListed) (chordLines level)
      (List.Forall₂ Note.SameListed) :=
  determined_block (determined_noteLine (level + 1)) (indented_noteLine (level + 1)) "(" rfl
    (by decide)

/-- A note and a chord begin with different characters. -/
theorem noteLine_append_ne (level : ℕ) (n : Note) (notes : List Note) (u v : List Char) :
    (noteLine level n).toList ++ u ≠ (chordLines level notes).toList ++ v := by
  intro hsame
  rw [toList_noteLine, chordLines, toList_block] at hsame
  simp only [List.append_assoc] at hsame
  have hhead : some 'N' = some '(' := congrArg List.head? (List.append_cancel_left hsame)
  cases hhead

theorem determined_eventLines (level : ℕ) :
    Determined (fun e => ∀ n ∈ e.notes, n.IsListed) (eventLines level)
      (Event.SameShape Note.SameListed) := by
  intro e e' he he' u v hsame
  cases e with
  | note n =>
    cases e' with
    | note m =>
      obtain ⟨hnotes, huv⟩ := determined_noteLine level (he n List.mem_cons_self)
        (he' m List.mem_cons_self) hsame
      exact ⟨.note hnotes, huv⟩
    | chord ms => exact absurd hsame (noteLine_append_ne level n ms u v)
  | chord ns =>
    cases e' with
    | note m => exact absurd hsame.symm (noteLine_append_ne level m ns v u)
    | chord ms =>
      obtain ⟨hnotes, huv⟩ := determined_chordLines level he he' hsame
      exact ⟨.chord hnotes, huv⟩

theorem determined_partLines (level : ℕ) :
    Determined (fun p => ∀ e ∈ p.events, ∀ n ∈ e.notes, n.IsListed) (partLines level)
      (Part.SameShape Note.SameListed) := by
  intro p p' hp hp' u v hsame
  exact determined_block (determined_eventLines (level + 1)) (indented_eventLines (level + 1)) "["
    rfl (by decide) hp hp' hsame

theorem determined_pieceLines (level : ℕ) :
    Determined (fun p => ∀ part ∈ p.parts, ∀ e ∈ part.events, ∀ n ∈ e.notes, n.IsListed)
      (pieceLines level) (Piece.SameShape Note.SameListed) := by
  intro p p' hp hp' u v hsame
  exact determined_block (determined_partLines (level + 1)) (indented_partLines (level + 1)) "("
    rfl (by decide) hp hp' hsame

end Report

/-! ### Pieces that are read -/

/-- A piece that was read, and then tempered if some division is given. -/
def Piece.IsRead (p : Piece) : Prop :=
  ∃ source read divisions, Piece.parse source = .ok read ∧ read.temper divisions = .ok p

theorem Note.WellFormed.isListed {n : Note} (h : n.WellFormed) : n.IsListed := by
  have hproduct : ∀ {q : Quantity}, q.WellFormed → ∃ p : Product, q = .product p ∧ p.factors ≠ [] := by
    intro q hq
    cases q with
    | product p => exact ⟨p, rfl, hq.nonempty⟩
    | ratio => cases hq
    | power => cases hq
  obtain ⟨f, hfrequency, hf⟩ := hproduct h.frequency
  obtain ⟨d, hduration, hd⟩ := hproduct h.duration
  refine ⟨?_, ?_, h.volume.imp_right hproduct⟩
  · rw [hfrequency]
    exact hf
  · rw [hduration]
    exact hd

/-- What tempering makes of a frequency is a power. -/
theorem Note.Tempered.isListed {divisions : ℕ} {n n' : Note} (h : n.Tempered divisions n')
    (hn : n.IsListed) : n'.IsListed := by
  obtain rfl | ⟨steps, hpower⟩ := h.other
  · exact hn
  · refine ⟨?_, ?_, ?_⟩
    · rw [hpower]
      trivial
    · rw [h.duration]
      exact hn.duration
    · rw [h.volume]
      exact hn.volume

theorem Piece.IsRead.isListed {p : Piece} (h : p.IsRead) :
    ∀ part ∈ p.parts, ∀ e ∈ part.events, ∀ n ∈ e.notes, n.IsListed := by
  obtain ⟨source, read, divisions, hread, htemper⟩ := h
  have hlisted : ∀ n ∈ (Music.piece read).notes, n.IsListed := by
    intro n hn
    obtain ⟨part, hpart, hn⟩ := List.mem_flatMap.mp hn
    obtain ⟨e, he, hn⟩ := List.mem_flatMap.mp hn
    exact (((wellFormed_of_parse hread).events part hpart e he).notes n hn).isListed
  intro part hpart e he n hn
  have hmem : n ∈ (Music.piece p).notes := Piece.mem_notes hpart he hn
  cases divisions with
  | none =>
    obtain rfl := Except.ok.inj htemper
    exact hlisted n hmem
  | some d =>
    obtain ⟨m, hm, htempered⟩ := (Piece.sameShape_temper htemper).alike.exists_left hmem
    exact htempered.isListed (hlisted m hm)

/-- Two pieces that were read, tempered or not, and that are listed alike are of one shape, and
their notes are the same one by one but for how a volume is written. -/
theorem sameShape_of_listing_eq {p q : Piece} (hp : p.IsRead) (hq : q.IsRead)
    (h : (Music.piece p).listing = (Music.piece q).listing) :
    p.SameShape Note.SameListed q := by
  have htext : (Report.pieceLines 0 p).toList ++ [] = (Report.pieceLines 0 q).toList ++ [] :=
    congrArg (fun s : String => s.toList ++ []) h
  exact (Report.determined_pieceLines 0 hp.isListed hq.isListed htext).1

/-- Two octaves on steps of twelve in a chord, and a rest. -/
def octavesAndRest (chordVolume restVolume : Quantity) : Piece :=
  let ratio (n : ℤ) : Quantity := .product ⟨[.ofInt n]⟩
  ⟨[⟨[.chord [⟨.power ⟨2, 12, 12⟩, ratio 1, chordVolume⟩,
      ⟨.power ⟨2, 24, 12⟩, ratio 1, chordVolume⟩],
    .note ⟨ratio 0, .product ⟨[.ofInt 1, .ofInt 1]⟩, restVolume⟩]⟩]⟩

/-- The volume one, written as a product. -/
def productOne : Quantity := .product ⟨[.ofInt 1, .ofInt 1]⟩

/-- Volumes of one are not listed, however they are written. -/
theorem sameShape_of_listing_eq_octavesAndRest :
    (octavesAndRest .one .one).IsRead ∧ (octavesAndRest productOne productOne).IsRead ∧
    octavesAndRest .one .one ≠ octavesAndRest productOne productOne ∧
    (Music.piece (octavesAndRest .one .one)).listing
      = (Music.piece (octavesAndRest productOne productOne)).listing ∧
    (octavesAndRest .one .one).SameShape Note.SameListed
      (octavesAndRest productOne productOne) := by
  have hone : (octavesAndRest .one .one).IsRead := by
    have hread : (Piece.parse "<2 4>:1 0:1*1" >>= Piece.temper (some 12)).toOption
        = some (octavesAndRest .one .one) := by decide +kernel
    obtain ⟨read, hparse, htemper⟩ := bind_eq_ok.mp (eq_ok_of_toOption hread)
    exact ⟨_, read, _, hparse, htemper⟩
  have hproduct : (octavesAndRest productOne productOne).IsRead := by
    have hread : (Piece.parse "<2 4>:1:1*1 0:1*1:1*1" >>= Piece.temper (some 12)).toOption
        = some (octavesAndRest productOne productOne) := by decide +kernel
    obtain ⟨read, hparse, htemper⟩ := bind_eq_ok.mp (eq_ok_of_toOption hread)
    exact ⟨_, read, _, hparse, htemper⟩
  have hlisting : (Music.piece (octavesAndRest .one .one)).listing
      = (Music.piece (octavesAndRest productOne productOne)).listing := by decide +kernel
  exact ⟨hone, hproduct, by decide, hlisting, sameShape_of_listing_eq hone hproduct hlisting⟩

end JustIntonation
