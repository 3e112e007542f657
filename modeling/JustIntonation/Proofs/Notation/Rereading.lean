/-
JustIntonation/Proofs/Notation/Rereading.lean

What was read once is read again where other text stands behind it.

A reading is greedy, so more text behind a text could change how the text
itself is read.  Little can: a digit, a `/` or a `*` behind a product, a `:`
behind a note or a chord, a `*` behind any item.  `EndsExpr` excludes these,
and a text that is read as an expression wherever the expression ends behind
it stands for that expression (`Stands`).

Texts that stand for expressions are put together as the grammar says
(`AtomStands.stands`, `Stands.multiply`, `atomStands_group`), with white space
between the items of a part or without it: `1:1(2:1)3:1` is a part of three
items (`PartText`).  What may not be without white space is a product in front
of a digit, and no product was ever read there.

Main results: what an item was read from stands for it (`exists_itemText`),
and what a sequence was read from is the text of a part
(`exists_partText`).
-/
import JustIntonation.Proofs.Notation.Acceptance
import JustIntonation.Proofs.Notation.Soundness

namespace JustIntonation.Notation

variable {α : Type} {c next : Cursor} {e : Expr} {es : List Expr} {cs ds rest : List Char}

/-! ### Repetitions that were read -/

/-- A repetition that was read is its end, or a piece in front of such a repetition. -/
theorem many_induction {p : Parser α} {motive : Cursor → List α → Prop} (nil : motive next [])
    (cons : ∀ {c a mid as}, p c = .done a mid → motive mid as → motive c (a :: as)) {as : List α}
    (h : p.many c = .done as next) : motive c as := by
  rw [Parser.many] at h
  generalize c.rest.length = bound at h
  induction bound generalizing c as with
  | zero =>
    obtain ⟨rfl, rfl⟩ := pure_eq_done.mp h
    exact nil
  | succ bound ih =>
    obtain ⟨-, rfl, rfl⟩ | ⟨a, as', mid, hfirst, hothers, rfl⟩ := repeatUpTo_eq_done.mp h
    · exact nil
    · exact cons hfirst (ih hothers)

/-- White space that was read, and what came behind it. -/
theorem exists_blank {u : Unit} (h : Parser.spaces c = .done u next) :
    ∃ blank, Blank blank ∧ c.rest = blank ++ next.rest ∧
      ∀ x ∈ next.rest.head?, Parser.isSpace x = false := by
  obtain ⟨-, rfl⟩ := Outcome.done.inj h
  refine ⟨c.rest.takeWhile Parser.isSpace, fun x hx => isSpace_iff.mp (List.mem_takeWhile_imp hx),
    List.takeWhile_append_dropWhile.symm, fun x hx => ?_⟩
  have hhead := List.head?_dropWhile_not Parser.isSpace c.rest
  rw [Option.mem_def.mp hx] at hhead
  simpa using hhead

/-! ### Products that were read -/

/-- A text in front of which no integer goes on. -/
def EndsInteger (rest : List Char) : Prop := ∀ d ∈ rest.head?, d.isDigit = false

theorem EndsInteger.of_append (h : EndsInteger (cs ++ ds)) : EndsInteger cs := by
  intro d hd
  apply h
  rw [List.head?_append, Option.mem_def.mp hd]
  rfl

theorem text_integer {l : Literal} (h : Parser.integer c = .done l next) :
    c.rest = l.chars ++ next.rest ∧ EndsInteger next.rest := by
  have hrun := expecting_eq_done.mp h
  simp only [Parser.digits] at hrun
  split_ifs at hrun
  obtain ⟨rfl, rfl⟩ := Outcome.done.inj hrun
  refine ⟨?_, fun d hd => ?_⟩
  · rw [Literal.chars, String.toList_ofList, List.takeWhile_append_dropWhile]
  · have hhead := List.head?_dropWhile_not Char.isDigit c.rest
    rw [Option.mem_def.mp hd] at hhead
    simpa using hhead

theorem text_sign {x : Char} {u : Unit} (h : Parser.char x c = .done u next) :
    c.rest = x :: next.rest := by
  obtain ⟨tail, hrest, rfl⟩ := char_eq_done.mp h
  exact hrest

theorem text_ratio {r : RatioLiteral} (h : Parser.ratio c = .done r next) :
    c.rest = r.chars ++ next.rest ∧ EndsInteger next.rest := by
  simp only [Parser.ratio, bind_eq_done, optional_eq_done, pure_eq_done] at h
  obtain ⟨n, c₁, hn, o, c₂, ho, rfl, rfl⟩ := h
  obtain ⟨hnumerator, hends⟩ := text_integer hn
  obtain ⟨d, rfl, _, c₃, hslash, hd⟩ | ⟨rfl, rfl, -⟩ := ho
  · obtain ⟨hdenominator, hends'⟩ := text_integer hd
    refine ⟨?_, hends'⟩
    rw [hnumerator, text_sign hslash, hdenominator]
    simp [RatioLiteral.chars]
  · exact ⟨hnumerator, hends⟩

theorem text_product {p : ProductLiteral} (h : Parser.product c = .done p next) :
    c.rest = p.chars ++ next.rest ∧ EndsInteger next.rest := by
  simp only [Parser.product, bind_eq_done, pure_eq_done] at h
  obtain ⟨r, c₁, hr, rs, c₂, hrs, rfl, rfl⟩ := h
  obtain ⟨hfirst, hends⟩ := text_ratio hr
  have hothers : EndsInteger c₁.rest → c₁.rest
      = (rs.map RatioLiteral.chars).flatMap ('*' :: ·) ++ c₂.rest ∧ EndsInteger c₂.rest := by
    refine many_induction (motive := fun c rs => EndsInteger c.rest → c.rest
      = (rs.map RatioLiteral.chars).flatMap ('*' :: ·) ++ c₂.rest ∧ EndsInteger c₂.rest) ?_ ?_ hrs
    · exact fun hends => ⟨rfl, hends⟩
    · intro c r mid rs hfactor ih _
      obtain ⟨_, c₃, hstar, hr⟩ := bind_eq_done.mp hfactor
      obtain ⟨hratio, hends⟩ := text_ratio hr
      obtain ⟨hmid, hends'⟩ := ih hends
      refine ⟨?_, hends'⟩
      rw [text_sign hstar, hratio, hmid]
      simp
  obtain ⟨hrest, hends'⟩ := hothers hends
  refine ⟨?_, hends'⟩
  rw [hfirst, hrest, ProductLiteral.chars, List.map_cons, intercalate_cons, List.append_assoc]

/-- Behind the `*` at which a product ended stands no digit. -/
theorem endsInteger_of_star {p : ProductLiteral} {mid : Cursor} {u : Unit}
    (h : Parser.product c = .done p mid) (hstar : Parser.char '*' mid = .done u next) :
    EndsInteger next.rest := by
  obtain ⟨offset, rest⟩ := mid
  obtain ⟨tail, rfl, rfl⟩ := char_eq_done.mp hstar
  exact product_ends h

theorem text_volume {p : Parser ProductLiteral} {v : Option ProductLiteral}
    (hp : ∀ {c w next}, p c = .done w next → Parser.product c = .done w next)
    (h : Parser.optional (do Parser.char ':'; p) c = .done v next) (hends : EndsInteger c.rest) :
    c.rest = volumeChars v ++ next.rest ∧ EndsInteger next.rest := by
  obtain ⟨w, rfl, hw⟩ | ⟨rfl, rfl, -⟩ := optional_eq_done.mp h
  · obtain ⟨_, c₁, hcolon, hw⟩ := bind_eq_done.mp hw
    obtain ⟨hvolume, hends'⟩ := text_product (hp hw)
    refine ⟨?_, hends'⟩
    rw [text_sign hcolon, hvolume]
    rfl
  · exact ⟨rfl, hends⟩

theorem text_volumeFactors {fs : List ProductLiteral}
    (h : Parser.many (do
      Parser.char '*'
      Parser.char '*'
      Parser.commit (Parser.expecting .volumeRatio Parser.product)) c = .done fs next) :
    c.rest = factorsChars fs ++ next.rest ∧
      ((fs = [] → EndsInteger c.rest) → EndsInteger next.rest) := by
  refine many_induction (motive := fun c fs => c.rest = factorsChars fs ++ next.rest ∧
    ((fs = [] → EndsInteger c.rest) → EndsInteger next.rest)) ?_ ?_ h
  · exact ⟨rfl, fun hends => hends rfl⟩
  · intro c f mid fs hfactor ih
    simp only [bind_eq_done, commit_eq_done, expecting_eq_done] at hfactor
    obtain ⟨_, c₁, hstar, _, c₂, hstar', hf⟩ := hfactor
    obtain ⟨htext, hends⟩ := text_product hf
    obtain ⟨hmid, hothers⟩ := ih
    refine ⟨?_, fun _ => hothers fun _ => hends⟩
    rw [text_sign hstar, text_sign hstar', htext, hmid]
    simp [factorsChars]

/-- Frequencies with white space behind each are spread: a product does not end in front of the
digit with which the next one begins. -/
theorem exists_spread {fs : List ProductLiteral}
    (h : Parser.many (do let f ← Parser.product; Parser.spaces; return f) c = .done fs next) :
    ∃ cs, c.rest = cs ++ next.rest ∧ (∀ f ∈ fs, f.Canonical) ∧
      Spread (fun (f : ProductLiteral) cs => cs = f.chars) fs cs := by
  refine many_induction (motive := fun c fs => ∃ cs, c.rest = cs ++ next.rest ∧
    (∀ f ∈ fs, f.Canonical) ∧ Spread (fun (f : ProductLiteral) cs => cs = f.chars) fs cs)
    ⟨[], rfl, nofun, .nil⟩ ?_ h
  rintro c f mid fs hfirst ⟨others, hmid, hcanonical, hothers⟩
  simp only [bind_eq_done, pure_eq_done] at hfirst
  obtain ⟨f', c₁, hf, _, c₂, hspaces, rfl, rfl⟩ := hfirst
  obtain ⟨htext, hends⟩ := text_product hf
  obtain ⟨blank, hblank, hrest, -⟩ := exists_blank hspaces
  refine ⟨f'.chars ++ (blank ++ others), ?_,
    List.forall_mem_cons.mpr ⟨(passage_product hf).2, hcanonical⟩, ?_⟩
  · rw [htext, hrest, hmid, List.append_assoc, List.append_assoc]
  · cases fs with
    | nil =>
      cases hothers
      rw [List.append_nil]
      exact .last rfl hblank
    | cons g fs =>
      refine .cons rfl hblank ?_ hothers
      rintro rfl
      obtain ⟨_, tail, rfl, rfl⟩ := hothers.exists_first
      obtain ⟨d, tail', hd, hdigit⟩ := (hcanonical g List.mem_cons_self).exists_chars
      rw [hrest, hmid, hd] at hends
      rw [hends d rfl] at hdigit
      cases hdigit

/-! ### Texts of items -/

/-- Whether more behind the text of an expression could belong to its last product. -/
def Expr.isOpen : Expr → Bool
  | .note .. | .chord .. | .amplify .. => true
  | .group _ => false
  | .multiply _ body => body.isOpen

/-- A text in front of which an expression ends. -/
structure EndsExpr (e : Expr) (rest : List Char) : Prop where
  noStar : rest.head? ≠ some '*'
  endsAtom : e.isOpen = true → EndsAtom rest

theorem EndsItem.endsExpr (h : EndsItem rest) (e : Expr) : EndsExpr e rest :=
  ⟨h.head?_ne (by decide), fun _ => h.endsAtom⟩

/-- A text that begins as an item does. -/
def StartsItem (cs : List Char) : Prop :=
  ∃ x tail, cs = x :: tail ∧ (x.isDigit = true ∨ x = '<' ∨ x = '(')

theorem StartsItem.append (h : StartsItem cs) (ds : List Char) : StartsItem (cs ++ ds) := by
  obtain ⟨x, tail, rfl, hx⟩ := h
  exact ⟨x, tail ++ ds, rfl, hx⟩

theorem StartsItem.noSpace (h : StartsItem cs) : ∀ x ∈ cs.head?, Parser.isSpace x = false := by
  obtain ⟨x, tail, rfl, hx⟩ := h
  rintro _ ⟨⟩
  rcases hx with hx | rfl | rfl
  · exact isSpace_eq_false_of_isDigit hx
  · rfl
  · rfl

theorem StartsItem.of_canonical {p : ProductLiteral} (h : p.Canonical) (ds : List Char) :
    StartsItem (p.chars ++ ds) := by
  obtain ⟨x, tail, hchars, hx⟩ := h.exists_chars
  exact ⟨x, tail ++ ds, by rw [hchars]; rfl, .inl hx⟩

/-- In front of an item ends every other, if it is not open in front of a digit. -/
theorem StartsItem.endsExpr (h : StartsItem cs) (hjoint : e.isOpen = true → EndsInteger cs)
    (ds : List Char) : EndsExpr e (cs ++ ds) := by
  obtain ⟨x, tail, rfl, hx⟩ := h
  constructor
  · rintro ⟨⟩
    simp at hx
  · intro hopen
    rcases hx with hx | rfl | rfl
    · rw [hjoint hopen x rfl] at hx
      cases hx
    · exact ⟨endsProduct_cons rfl nofun nofun, nofun⟩
    · exact ⟨endsProduct_cons rfl nofun nofun, nofun⟩

/-- An item that does not begin with a digit begins with a bracket. -/
theorem StartsItem.bracket (h : StartsItem cs) (hends : EndsInteger cs) :
    ∃ x tail, cs = x :: tail ∧ (x = '<' ∨ x = '(') := by
  obtain ⟨x, tail, rfl, hx⟩ := h
  refine ⟨x, tail, rfl, hx.resolve_left ?_⟩
  rw [hends x rfl]
  exact nofun

/-- A text that is read as an item wherever the item ends behind it. -/
def Stands (e : Expr) (cs : List Char) : Prop :=
  ∀ (depth : ℕ) (tail : List Char), cs.length ≤ depth → EndsExpr e tail →
    Reads (Parser.item depth) cs tail fun a => a.bare = e.bare

/-- A text that is read as an atom wherever the atom ends behind it, and with which no multiplied
item begins. -/
structure AtomStands (e : Expr) (cs : List Char) : Prop where
  reads : ∀ (depth : ℕ) (tail : List Char), cs.length ≤ depth + 1 →
    (e.isOpen = true → EndsAtom tail) →
    Reads (Parser.atom (Parser.item depth)) cs tail fun a => a.bare = e.bare
  single : ∀ (p : Parser Expr) tail, Misses (Parser.multiplied p) (cs ++ tail)
  starts : StartsItem cs

theorem atomStands_note {f d : ProductLiteral} {v : Option ProductLiteral}
    (h : (Expr.note f d v).Canonical) :
    AtomStands (.note f d v) (f.chars ++ ':' :: (d.chars ++ volumeChars v)) where
  reads _ _ hdepth hrest := (readsItems _).reads_atom trivial h .note hdepth (hrest rfl)
  single _ tail := misses_multiplied_atom (e := .note f d v) trivial h .note tail
  starts := by
    cases h with
    | note hf _ _ => exact .of_canonical hf _

theorem atomStands_chord {fs : List ProductLiteral} {d : ProductLiteral}
    {v : Option ProductLiteral} {blank : List Char} (h : (Expr.chord fs d v).Canonical)
    (hblank : Blank blank) (hspread : Spread (fun (f : ProductLiteral) cs => cs = f.chars) fs cs) :
    AtomStands (.chord fs d v)
      ('<' :: (blank ++ (cs ++ '>' :: ':' :: (d.chars ++ volumeChars v)))) where
  reads _ _ hdepth hrest :=
    (readsItems _).reads_atom trivial h (.chord hblank hspread) hdepth (hrest rfl)
  single _ tail :=
    misses_multiplied_atom (e := .chord fs d v) trivial h (.chord hblank hspread) tail
  starts := ⟨'<', _, rfl, .inr (.inl rfl)⟩

theorem isOpen_foldl_amplify (fs : List ProductLiteral) (e : Expr) :
    (fs.foldl .amplify e).isOpen = true ↔ fs ≠ [] ∨ e.isOpen = true := by
  induction fs generalizing e with
  | nil => simp
  | cons f fs ih =>
    rw [List.foldl_cons, ih]
    simp [Expr.isOpen]

/-- An atom with volume factors behind it. -/
theorem AtomStands.stands (h : AtomStands e cs) {fs : List ProductLiteral}
    (hfs : ∀ f ∈ fs, f.Canonical) : Stands (fs.foldl .amplify e) (cs ++ factorsChars fs) := by
  intro depth tail hdepth hends
  obtain ⟨x, tail', rfl, -⟩ := h.starts
  rw [List.length_append, List.length_cons] at hdepth
  obtain ⟨depth, rfl⟩ : ∃ d, depth = d + 1 := ⟨depth - 1, by omega⟩
  have hopen := isOpen_foldl_amplify fs e
  have hatom := h.reads depth (factorsChars fs ++ tail) (by rw [List.length_cons]; omega)
    fun he => (hends.endsAtom (hopen.mpr (.inr he))).factors_append fs
  have hitem := reads_amplified hatom hfs hends.noStar
    fun hne => hends.endsAtom (hopen.mpr (.inl hne))
  apply Reads.orElse_of_misses _ hitem
  rw [List.append_assoc]
  exact h.single _ _

theorem AtomStands.stands_alone (h : AtomStands e cs) : Stands e cs := by
  have hstands := h.stands (List.forall_mem_nil _)
  rwa [factorsChars, List.flatMap_nil, List.append_nil] at hstands

/-- A bracketed item with a factor before it. -/
theorem Stands.multiply {f : ProductLiteral} (hf : f.Canonical)
    (hbracket : ∃ x tail, cs = x :: tail ∧ (x = '<' ∨ x = '(')) (h : Stands e cs) :
    Stands (.multiply f e) (f.chars ++ '*' :: cs) := by
  intro depth tail hdepth hends
  rw [List.length_append, List.length_cons] at hdepth
  obtain ⟨depth, rfl⟩ : ∃ d, depth = d + 1 := ⟨depth - 1, by omega⟩
  exact Reads.orElse (reads_multiplied hf hbracket
    (h depth tail (by omega) ⟨hends.noStar, hends.endsAtom⟩))

/-! ### Texts of parts -/

/-- Texts of items one behind the other, with white space behind each or not.  An item in front
of the digit of another without white space is not open. -/
inductive Row : List Expr → List Char → Prop
  | nil : Row [] []
  | cons {e es cs blank others} (first : Stands e cs) (starts : StartsItem cs)
      (space : Blank blank) (joint : blank = [] → e.isOpen = true → EndsInteger others)
      (rest : Row es others) : Row (e :: es) (cs ++ (blank ++ others))

theorem Row.single (h : Stands e cs) (hstarts : StartsItem cs) : Row [e] cs := by
  have hrow : Row [e] (cs ++ ([] ++ [])) := .cons h hstarts nofun (fun _ _ => nofun) .nil
  rwa [List.append_nil, List.append_nil] at hrow

/-- A text from which a part is read, wherever it stands. -/
def PartText (es : List Expr) (cs : List Char) : Prop :=
  ∃ blank row, Blank blank ∧ Row es row ∧ cs = blank ++ row

theorem Row.noSpace_append (h : Row es cs) (hrest : ∀ x ∈ rest.head?, Parser.isSpace x = false) :
    ∀ x ∈ (cs ++ rest).head?, Parser.isSpace x = false := by
  cases h with
  | nil => exact hrest
  | cons _ starts _ _ _ =>
    rw [List.append_assoc]
    exact (starts.append _).noSpace

/-- In front of the rest of a row, and of what ends an item behind the row, an item ends. -/
theorem Row.endsExpr {blank : List Char} (h : Row es cs) (hblank : Blank blank)
    (hjoint : blank = [] → e.isOpen = true → EndsInteger cs) (hrest : EndsItem rest) :
    EndsExpr e (blank ++ (cs ++ rest)) := by
  cases blank with
  | cons x blank =>
    exact (EndsItem.of_blank hblank (List.cons_ne_nil _ _) _).endsExpr e
  | nil =>
    cases h with
    | nil => exact hrest.endsExpr e
    | cons _ starts _ _ _ =>
      rw [List.append_assoc]
      exact starts.endsExpr (fun hopen => (hjoint rfl hopen).of_append) _

theorem Row.readsAll {depth : ℕ} (h : Row es cs) (hdepth : cs.length ≤ depth)
    (hrest : EndsSequence rest) :
    ReadsAll (do let e ← Parser.item depth; Parser.spaces; return e) cs rest
      fun as => as.map Expr.bare = es.map Expr.bare := by
  induction h with
  | nil => exact ReadsAll.nil (misses_item depth hrest.endsItem.startsNoItem).bind rfl
  | @cons e es cs blank others first starts space joint row ih =>
    rw [List.length_append, List.length_append] at hdepth
    have hfirst := first depth _ (by omega) (row.endsExpr space joint hrest.endsItem)
    have hpiece := reads_spaced hfirst space (row.noSpace_append hrest.noSpace)
    obtain ⟨x, tail, rfl, -⟩ := starts
    rw [← List.append_assoc]
    apply ReadsAll.cons (List.cons_ne_nil _ _) hpiece (ih (by omega))
    intro a as ha has
    rw [List.map_cons, List.map_cons, ha, has]

theorem PartText.reads {depth : ℕ} (h : PartText es cs) (hdepth : cs.length ≤ depth)
    (hrest : EndsSequence rest) :
    Reads (Parser.sequence (Parser.item depth)) cs rest
      fun as => as.map Expr.bare = es.map Expr.bare := by
  obtain ⟨blank, row, hblank, hrow, rfl⟩ := h
  rw [List.length_append] at hdepth
  have hspace := hrow.noSpace_append hrest.noSpace
  apply Reads.bind (reads_spaces (fun x hx => isSpace_iff.mpr (hblank x hx)) hspace)
  intro _ _
  exact (hrow.readsAll (by omega) hrest).many

/-- A part in brackets. -/
theorem atomStands_group (h : PartText es cs) :
    AtomStands (.group es) ('(' :: (cs ++ [')'])) where
  reads depth tail hdepth _ := by
    simp only [List.length_cons, List.length_append, List.length_nil] at hdepth
    apply Reads.orElse_of_misses (misses_note (by rintro x ⟨⟩; rfl))
    apply Reads.orElse_of_misses (misses_chord fun hx => by cases hx)
    exact reads_group (h.reads (by omega) (endsSequence_close tail))
  single _ tail := (misses_product (by rintro x ⟨⟩; rfl)).bind
  starts := ⟨'(', _, rfl, .inr (.inr rfl)⟩

/-! ### Items that were read -/

/-- What an item was read from stands for it; and if it is open, no digit stood behind it. -/
structure ItemText (c : Cursor) (e : Expr) (next : Cursor) (cs : List Char) : Prop where
  text : c.rest = cs ++ next.rest
  starts : StartsItem cs
  stands : Stands e cs
  ends : e.isOpen = true → EndsInteger next.rest

/-- What an atom was read from stands for it; and if it is open, no digit stood behind it. -/
structure AtomText (c : Cursor) (e : Expr) (next : Cursor) (cs : List Char) : Prop where
  text : c.rest = cs ++ next.rest
  stands : AtomStands e cs
  ends : e.isOpen = true → EndsInteger next.rest

theorem exists_atomText_note (h : Parser.note c = .done e next) :
    ∃ cs, AtomText c e next cs := by
  obtain ⟨-, hcanonical, -⟩ := passage_note h
  simp only [Parser.note, bind_eq_done, commit_eq_done, expecting_eq_done, pure_eq_done] at h
  obtain ⟨f, c₁, hf, _, c₂, hcolon, d, c₃, hd, v, c₄, hv, rfl, rfl⟩ := h
  obtain ⟨hfrequency, -⟩ := text_product hf
  obtain ⟨hduration, hends⟩ := text_product hd
  obtain ⟨hvolume, hends'⟩ :=
    text_volume (fun hw => expecting_eq_done.mp (commit_eq_done.mp hw)) hv hends
  refine ⟨_, ?_, atomStands_note hcanonical, fun _ => hends'⟩
  rw [hfrequency, text_sign hcolon, hduration, hvolume]
  simp

theorem exists_atomText_chord (h : Parser.chord c = .done e next) :
    ∃ cs, AtomText c e next cs := by
  obtain ⟨-, hcanonical, -⟩ := passage_chord h
  simp only [Parser.chord, Parser.required, bind_eq_done, commit_eq_done, expecting_eq_done,
    pure_eq_done] at h
  obtain ⟨_, c₁, hopen, _, c₂, hspaces, fs, c₃, hfs, _, c₄, hclose, _, c₅, hcolon, d, c₆, hd, v, c₇,
    hv, rfl, rfl⟩ := h
  obtain ⟨blank, hblank, hinside, -⟩ := exists_blank hspaces
  obtain ⟨cs, hfrequencies, -, hspread⟩ := exists_spread hfs
  obtain ⟨hduration, hends⟩ := text_product hd
  obtain ⟨hvolume, hends'⟩ := text_volume expecting_eq_done.mp hv hends
  refine ⟨_, ?_, atomStands_chord hcanonical hblank hspread, fun _ => hends'⟩
  rw [text_sign hopen, hinside, hfrequencies, text_sign hclose, text_sign hcolon, hduration,
    hvolume]
  simp

/-- What items were read from one behind the other is the text of a part. -/
theorem exists_partText {item : Parser Expr}
    (hitem : ∀ {c e next}, item c = .done e next → ∃ cs, ItemText c e next cs)
    (h : Parser.sequence item c = .done es next) :
    ∃ cs, c.rest = cs ++ next.rest ∧ PartText es cs := by
  obtain ⟨_, c₁, hspaces, hes⟩ := bind_eq_done.mp h
  obtain ⟨blank, hblank, hrest, -⟩ := exists_blank hspaces
  obtain ⟨row, hrow, htext⟩ : ∃ row, Row es row ∧ c₁.rest = row ++ next.rest := by
    refine many_induction (motive := fun c es => ∃ row, Row es row ∧ c.rest = row ++ next.rest)
      ⟨[], .nil, rfl⟩ ?_ hes
    rintro c e mid es hfirst ⟨others, hothers, hmid⟩
    simp only [bind_eq_done, pure_eq_done] at hfirst
    obtain ⟨e', c₁, he, _, c₂, hspaces, rfl, rfl⟩ := hfirst
    obtain ⟨cs, htext⟩ := hitem he
    obtain ⟨blank, hblank, hrest, -⟩ := exists_blank hspaces
    refine ⟨cs ++ (blank ++ others), .cons htext.stands htext.starts hblank ?_ hothers, ?_⟩
    · rintro rfl hopen d hd
      have hends := htext.ends hopen
      rw [hrest, List.nil_append, hmid] at hends
      exact hends.of_append d hd
    · rw [htext.text, hrest, hmid, List.append_assoc, List.append_assoc]
  exact ⟨blank ++ row, by rw [hrest, htext, List.append_assoc], blank, row, hblank, hrow, rfl⟩

theorem exists_atomText {item : Parser Expr}
    (hitem : ∀ {c e next}, item c = .done e next → ∃ cs, ItemText c e next cs)
    (h : Parser.atom item c = .done e next) : ∃ cs, AtomText c e next cs := by
  simp only [Parser.atom, orElse_eq_done] at h
  rcases h with hnote | ⟨-, hchord | ⟨-, hgroup⟩⟩
  · exact exists_atomText_note hnote
  · exact exists_atomText_chord hchord
  · simp only [Parser.group, Parser.required, bind_eq_done, commit_eq_done, expecting_eq_done,
      pure_eq_done] at hgroup
    obtain ⟨_, c₁, hopen, es, c₂, hes, _, c₃, hclose, rfl, rfl⟩ := hgroup
    obtain ⟨cs, hitems, hpart⟩ := exists_partText hitem hes
    refine ⟨_, ?_, atomStands_group hpart, by rintro ⟨⟩⟩
    rw [text_sign hopen, hitems, text_sign hclose]
    simp

theorem exists_itemText_amplified {item : Parser Expr}
    (hitem : ∀ {c e next}, item c = .done e next → ∃ cs, ItemText c e next cs)
    (h : Parser.amplified item c = .done e next) : ∃ cs, ItemText c e next cs := by
  simp only [Parser.amplified, bind_eq_done, pure_eq_done] at h
  obtain ⟨body, c₁, hbody, fs, c₂, hfs, rfl, rfl⟩ := h
  obtain ⟨cs, hatom⟩ := exists_atomText hitem hbody
  obtain ⟨-, hcanonical⟩ := passage_many passage_volumeFactor hfs
  obtain ⟨hfactors, hends⟩ := text_volumeFactors hfs
  refine ⟨cs ++ factorsChars fs, ?_, hatom.stands.starts.append _,
    hatom.stands.stands hcanonical, ?_⟩
  · rw [hatom.text, hfactors, List.append_assoc]
  · intro hopen
    apply hends
    rintro rfl
    exact hatom.ends hopen

theorem exists_itemText_multiplied {item : Parser Expr}
    (hitem : ∀ {c e next}, item c = .done e next → ∃ cs, ItemText c e next cs)
    (h : Parser.multiplied item c = .done e next) : ∃ cs, ItemText c e next cs := by
  simp only [Parser.multiplied, bind_eq_done, commit_eq_done, expecting_eq_done, pure_eq_done] at h
  obtain ⟨f, c₁, hf, _, c₂, hstar, body, c₃, hbody, rfl, rfl⟩ := h
  obtain ⟨hfactor, -⟩ := text_product hf
  obtain ⟨cs, hread⟩ := hitem hbody
  have hends := endsInteger_of_star hf hstar
  rw [hread.text] at hends
  have hmultiply := hread.stands.multiply (passage_product hf).2
    (hread.starts.bracket hends.of_append)
  refine ⟨f.chars ++ '*' :: cs, ?_, .of_canonical (passage_product hf).2 _, hmultiply, hread.ends⟩
  rw [hfactor, text_sign hstar, hread.text, List.append_assoc, List.cons_append]

/-- What an item was read from stands for it. -/
theorem exists_itemText (depth : ℕ) :
    ∀ {c e next}, Parser.item depth c = .done e next → ∃ cs, ItemText c e next cs := by
  induction depth with
  | zero => exact nofun
  | succ depth ih =>
    intro c e next h
    rcases orElse_eq_done.mp h with hmultiplied | ⟨-, hamplified⟩
    · exact exists_itemText_multiplied ih hmultiplied
    · exact exists_itemText_amplified ih hamplified

/-! ### Whole texts -/

/-- The texts of parts behind the first, each with the sign before it. -/
theorem exists_partTexts_of_many {depth : ℕ} {c next : Cursor} {parts : List (List Expr)}
    (h : Parser.many (do Parser.char ';'; Parser.sequence (Parser.item depth)) c
      = .done parts next) :
    ∃ texts, List.Forall₂ PartText parts texts ∧
      c.rest = texts.flatMap (';' :: ·) ++ next.rest := by
  refine many_induction (motive := fun c parts => ∃ texts, List.Forall₂ PartText parts texts ∧
    c.rest = texts.flatMap (';' :: ·) ++ next.rest) ⟨[], .nil, rfl⟩ ?_ h
  rintro c part mid parts hfirst ⟨texts, htexts, hmid⟩
  obtain ⟨_, c₁, hsign, hpart⟩ := bind_eq_done.mp hfirst
  obtain ⟨text, hrest, htext⟩ := exists_partText (exists_itemText depth) hpart
  refine ⟨text :: texts, .cons htext htexts, ?_⟩
  rw [text_sign hsign, hrest, hmid, List.flatMap_cons]
  simp

/-- What a tree was read from falls into the texts of its parts. -/
theorem exists_partTexts_of_tree {depth : ℕ} {c next : Cursor} {t : Tree}
    (h : Parser.tree depth c = .done t next) :
    t.parts ≠ [] ∧ ∃ texts, List.Forall₂ PartText t.parts texts ∧
      c.rest = [';'].intercalate texts ++ next.rest := by
  simp only [Parser.tree, bind_eq_done, pure_eq_done] at h
  obtain ⟨part, c₁, hpart, parts, c₂, hparts, rfl, rfl⟩ := h
  obtain ⟨text, hrest, htext⟩ := exists_partText (exists_itemText depth) hpart
  obtain ⟨texts, htexts, hothers⟩ := exists_partTexts_of_many hparts
  refine ⟨List.cons_ne_nil _ _, text :: texts, .cons htext htexts, ?_⟩
  rw [intercalate_cons, hrest, hothers, List.append_assoc]

theorem exists_partTexts_of_parse {source : String} {t : Tree} (h : Tree.parse source = .ok t) :
    t.parts ≠ [] ∧ ∃ texts, List.Forall₂ PartText t.parts texts ∧
      source.toList = [';'].intercalate texts := by
  rw [Tree.parse] at h
  split at h
  · rename_i t' next hrun
    split_ifs at h with hend
    obtain rfl := Except.ok.inj h
    obtain ⟨hne, texts, htexts, hsource⟩ := exists_partTexts_of_tree hrun
    rw [List.isEmpty_iff.mp hend, List.append_nil] at hsource
    exact ⟨hne, texts, htexts, hsource⟩
  · cases h
  · cases h

/-- Texts of parts that are joined are read as a tree of these parts. -/
theorem parse_of_partTexts {source : String} {parts : List (List Expr)}
    {texts : List (List Char)} (hne : parts ≠ []) (hparts : List.Forall₂ PartText parts texts)
    (hsource : source.toList = [';'].intercalate texts) :
    ∃ t, Tree.parse source = .ok t ∧ t.bare = (Tree.mk parts).bare := by
  have hlength : ([';'].intercalate texts).length ≤ source.toList.length + 1 := by
    rw [hsource]
    exact Nat.le_succ _
  have hreads := reads_tree_of_parts (fun _ _ _ htext hdepth hrest => htext.reads hdepth hrest)
    hne hparts hlength
  rw [← hsource] at hreads
  exact parse_of_reads hreads

end JustIntonation.Notation
