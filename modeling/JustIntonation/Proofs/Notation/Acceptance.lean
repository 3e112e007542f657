/-
JustIntonation/Proofs/Notation/Acceptance.lean

Every text of a canonical tree is read as that tree.

A reading is greedy, so what a construct takes depends on what stands behind
it: a product goes on at a `*` with a digit behind it, a note at a `:`, an
item at a `**`.  For each construct there is therefore a condition on the rest
of the text (`EndsProduct`, `EndsAtom`, `EndsItem`), under which it takes its
own text and no more, and in every text of a tree what follows a construct
meets it.  An item is taken apart into its atom and the volume factors behind
it (`Expr.exists_atom`), as the parser reads it; the induction is on the depth
that the parser is given, which the length of the text bounds.

Main result: the parser accepts every text of a canonical tree and returns
that tree, up to the places of its integers (`parse_of_written`).
-/
import JustIntonation.Proofs.Notation.Layout
import JustIntonation.Proofs.Notation.Reading

namespace JustIntonation.Notation

variable {rest : List Char}

/-! ### Products -/

/-- A text in front of which a product ends. -/
structure EndsProduct (rest : List Char) : Prop where
  noDigit : ∀ c ∈ rest.head?, c.isDigit = false
  noSlash : rest.head? ≠ some '/'
  noFactor : ∀ tail, rest = '*' :: tail → ∀ c ∈ tail.head?, c.isDigit = false

theorem endsProduct_cons {c : Char} {tail : List Char} (hdigit : c.isDigit = false)
    (hslash : c ≠ '/') (hfactor : c = '*' → ∀ d ∈ tail.head?, d.isDigit = false) :
    EndsProduct (c :: tail) where
  noDigit := by
    rintro d ⟨⟩
    exact hdigit
  noSlash := fun h => hslash (Option.some.inj h)
  noFactor := by
    intro tail' htail
    obtain ⟨hc, rfl⟩ := List.cons.inj htail
    exact hfactor hc

theorem reads_integer {l : Literal} (h : l.Canonical)
    (hrest : ∀ c ∈ rest.head?, c.isDigit = false) :
    Reads Parser.integer l.chars rest fun a => a.bare = l.bare := by
  have hdigits := (reads_digits h.1 h.2 hrest).imp fun a ha => by
    show a.bare = l.bare
    rw [Literal.bare, Literal.bare, ha, String.ofList_toList]
  exact hdigits.expecting

theorem misses_integer (h : ∀ c ∈ rest.head?, c.isDigit = false) :
    Misses Parser.integer rest := (misses_digits h).expecting

theorem reads_ratio {r : RatioLiteral} (h : r.Canonical)
    (hdigit : ∀ c ∈ rest.head?, c.isDigit = false) (hslash : rest.head? ≠ some '/') :
    Reads Parser.ratio r.chars rest fun a => a.bare = r.bare := by
  obtain ⟨numerator, denominator⟩ := r
  cases denominator with
  | none =>
    -- No `/` follows, so the denominator is not even tried.
    show Reads Parser.ratio numerator.chars rest _
    rw [← List.append_nil numerator.chars]
    apply Reads.bind (reads_integer h.1 (by simpa using hdigit))
    intro n hn
    apply Reads.bind_pure (Reads.optional_of_misses (Misses.bind (misses_char hslash)))
    rintro d rfl
    show RatioLiteral.mk n.bare none = _
    rw [hn]
    rfl
  | some denominator =>
    show Reads Parser.ratio (numerator.chars ++ (['/'] ++ denominator.chars)) rest _
    apply Reads.bind (reads_integer h.1 (by rintro c ⟨⟩; rfl))
    intro n hn
    have hdenominator := Reads.bind (reads_char '/' _) fun _ _ =>
      reads_integer (h.2 denominator rfl) hdigit
    apply Reads.bind_pure (Reads.optional hdenominator)
    rintro _ ⟨d, rfl, hd⟩
    show RatioLiteral.mk n.bare (some d.bare) = _
    rw [hn, hd]
    rfl

theorem misses_ratio (h : ∀ c ∈ rest.head?, c.isDigit = false) : Misses Parser.ratio rest :=
  (misses_integer h).bind

/-- Behind the first of joined texts stands the sign, or what stands behind them all. -/
theorem head?_flatMap_append {x : Char} {others : List (List Char)} {c : Char}
    (h : c ∈ (others.flatMap (x :: ·) ++ rest).head?) : c = x ∨ c ∈ rest.head? := by
  cases others with
  | nil => exact .inr h
  | cons other others => exact .inl (Option.some.inj h).symm

/-- In front of further factors a ratio ends as a product does without them. -/
theorem EndsProduct.endsRatio (h : EndsProduct rest) (others : List (List Char)) :
    (∀ c ∈ (others.flatMap ('*' :: ·) ++ rest).head?, c.isDigit = false) ∧
      (others.flatMap ('*' :: ·) ++ rest).head? ≠ some '/' := by
  constructor
  · intro c hc
    rcases head?_flatMap_append hc with rfl | hc
    · rfl
    · exact h.noDigit c hc
  · intro hc
    rcases head?_flatMap_append hc with hstar | hc
    · cases hstar
    · exact h.noSlash hc

theorem reads_factors {rs : List RatioLiteral} (h : ∀ r ∈ rs, r.Canonical)
    (hrest : EndsProduct rest) :
    ReadsAll (do Parser.char '*'; Parser.ratio) ((rs.map RatioLiteral.chars).flatMap ('*' :: ·))
      rest fun as => as.map RatioLiteral.bare = rs.map RatioLiteral.bare := by
  induction rs with
  | nil =>
    apply ReadsAll.nil
    · -- A `*` may follow, but then no digit behind it.
      cases hstar : rest with
      | nil => exact Misses.bind (misses_char nofun)
      | cons c tail =>
        by_cases hc : c = '*'
        · subst hc
          exact Misses.bind_of_reads (reads_char '*' tail) fun _ _ =>
            misses_ratio (hrest.noFactor tail hstar)
        · exact Misses.bind (misses_char fun h => hc (Option.some.inj h))
    · rfl
  | cons r rs ih =>
    obtain ⟨hr, hrs⟩ := List.forall_mem_cons.mp h
    obtain ⟨hdigit, hslash⟩ := hrest.endsRatio (rs.map RatioLiteral.chars)
    have hfirst := Reads.bind (reads_char '*' _) fun _ _ => reads_ratio hr hdigit hslash
    rw [List.map_cons, List.flatMap_cons]
    apply ReadsAll.cons (List.cons_ne_nil _ _) hfirst (ih hrs)
    intro a as ha has
    rw [List.map_cons, List.map_cons, ha, has]

theorem reads_product {p : ProductLiteral} (h : p.Canonical) (hrest : EndsProduct rest) :
    Reads Parser.product p.chars rest fun a => a.bare = p.bare := by
  obtain ⟨ratios⟩ := p
  obtain ⟨r, rs, rfl⟩ := List.exists_cons_of_ne_nil h.1
  obtain ⟨hr, hrs⟩ := List.forall_mem_cons.mp h.2
  show Reads Parser.product (['*'].intercalate (r.chars :: rs.map RatioLiteral.chars)) rest _
  rw [intercalate_cons]
  obtain ⟨hdigit, hslash⟩ := hrest.endsRatio (rs.map RatioLiteral.chars)
  apply Reads.bind (reads_ratio hr hdigit hslash)
  intro a ha
  apply Reads.bind_pure (reads_factors hrs hrest).many
  intro as has
  show ProductLiteral.mk (a.bare :: as.map RatioLiteral.bare) = _
  rw [ha, has]
  rfl

theorem misses_product (h : ∀ c ∈ rest.head?, c.isDigit = false) : Misses Parser.product rest :=
  (misses_ratio h).bind

/-- A product begins with a digit. -/
theorem ProductLiteral.Canonical.exists_chars {p : ProductLiteral} (h : p.Canonical) :
    ∃ c tail, p.chars = c :: tail ∧ c.isDigit = true := by
  obtain ⟨ratios⟩ := p
  obtain ⟨r, rs, rfl⟩ := List.exists_cons_of_ne_nil h.1
  obtain ⟨hne, hdigits⟩ := (List.forall_mem_cons.mp h.2).1.1
  obtain ⟨c, tail, hnumerator⟩ := List.exists_cons_of_ne_nil hne
  have hratio : ∃ tail, r.chars = c :: tail := by
    obtain ⟨numerator, denominator⟩ := r
    cases denominator with
    | none => exact ⟨tail, hnumerator⟩
    | some d =>
      refine ⟨tail ++ '/' :: d.chars, ?_⟩
      show numerator.text.toList ++ '/' :: d.chars = _
      rw [hnumerator]
      rfl
  obtain ⟨tail, hratio⟩ := hratio
  refine ⟨c, tail ++ (rs.map RatioLiteral.chars).flatMap ('*' :: ·), ?_, ?_⟩
  · show ['*'].intercalate (r.chars :: rs.map RatioLiteral.chars) = _
    rw [intercalate_cons, hratio]
    rfl
  · exact hdigits c (by rw [hnumerator]; exact List.mem_cons_self)

/-! ### Durations and volumes -/

/-- A text in front of which an atom ends: no volume follows, and none of its products goes
on. -/
structure EndsAtom (rest : List Char) : Prop where
  product : EndsProduct rest
  noVolume : rest.head? ≠ some ':'

theorem endsProduct_colon (tail : List Char) : EndsProduct (':' :: tail) :=
  endsProduct_cons rfl nofun nofun

theorem EndsProduct.volume_append (hrest : EndsProduct rest) (v : Option ProductLiteral) :
    EndsProduct (volumeChars v ++ rest) := by
  cases v with
  | none => exact hrest
  | some v => exact endsProduct_colon _

theorem EndsAtom.misses_volume (h : EndsAtom rest) (p : Parser ProductLiteral) :
    Misses (do Parser.char ':'; p) rest := (misses_char h.noVolume).bind

/-- A duration and perhaps a volume, as they stand at the end of notes and chords. -/
theorem reads_durationAndVolume {p q : Parser ProductLiteral}
    {make : ProductLiteral → Option ProductLiteral → Expr} {d : ProductLiteral}
    {v : Option ProductLiteral}
    (hp : ∀ {tail}, EndsProduct tail → Reads p d.chars tail fun a => a.bare = d.bare)
    (hq : ∀ w ∈ v, ∀ {tail}, EndsProduct tail → Reads q w.chars tail fun a => a.bare = w.bare)
    (hrest : EndsProduct rest) (hvolume : v = none → Misses (do Parser.char ':'; q) rest) :
    Reads (do
      let duration ← p
      let volume ← Parser.optional (do Parser.char ':'; q)
      return make duration volume) (d.chars ++ volumeChars v) rest
      fun e => ∃ d' v', e = make d' v' ∧ d'.bare = d.bare ∧
        v'.map ProductLiteral.bare = v.map ProductLiteral.bare := by
  apply Reads.bind (hp (hrest.volume_append v))
  intro d' hd
  cases v with
  | none =>
    apply Reads.bind_pure (Reads.optional_of_misses (hvolume rfl))
    rintro v' rfl
    exact ⟨d', none, rfl, hd, rfl⟩
  | some w =>
    have hread := Reads.bind (reads_char ':' _) fun _ _ => hq w rfl hrest
    apply Reads.bind_pure (Reads.optional hread)
    rintro _ ⟨w', rfl, hw⟩
    exact ⟨d', some w', rfl, hd, congrArg some hw⟩

/-! ### Notes -/

theorem reads_note {f d : ProductLiteral} {v : Option ProductLiteral} (hf : f.Canonical)
    (hd : d.Canonical) (hv : ∀ w ∈ v, w.Canonical) (hrest : EndsAtom rest) :
    Reads Parser.note (f.chars ++ ':' :: (d.chars ++ volumeChars v)) rest
      fun e => e.bare = (Expr.note f d v).bare := by
  apply Reads.bind (reads_product hf (endsProduct_colon _))
  intro f' hf'
  apply Reads.bind (reads_char ':' _)
  intro _ _
  apply Reads.imp (reads_durationAndVolume (fun htail => (reads_product hd htail).expecting.commit)
    (fun w hw _ htail => (reads_product (hv w hw) htail).expecting.commit) hrest.product
    fun _ => hrest.misses_volume _)
  rintro _ ⟨d', v', rfl, hd', hv'⟩
  show Expr.note f'.bare d'.bare (v'.map ProductLiteral.bare) = _
  rw [hf', hd', hv']
  rfl

theorem misses_note (h : ∀ c ∈ rest.head?, c.isDigit = false) : Misses Parser.note rest :=
  (misses_product h).bind

/-! ### Things with white space behind them -/

theorem Spread.exists_first {α : Type} {written : α → List Char → Prop} {x : α} {xs : List α}
    {text : List Char} (h : Spread written (x :: xs) text) :
    ∃ cs tail, written x cs ∧ text = cs ++ tail := by
  cases h with
  | last first _ => exact ⟨_, _, first, rfl⟩
  | cons first _ _ _ => exact ⟨_, _, first, rfl⟩

/-- Where things that begin without white space are spread, the text does so too. -/
theorem Spread.noSpace_append {α : Type} {written : α → List Char → Prop} {xs : List α}
    {text : List Char} (h : Spread written xs text)
    (hstart : ∀ x ∈ xs, ∀ cs, written x cs →
      ∃ c tail, cs = c :: tail ∧ Parser.isSpace c = false)
    (hrest : ∀ c ∈ rest.head?, Parser.isSpace c = false) :
    ∀ c ∈ (text ++ rest).head?, Parser.isSpace c = false := by
  cases xs with
  | nil =>
    cases h
    exact hrest
  | cons x xs =>
    obtain ⟨cs, tail, hx, rfl⟩ := h.exists_first
    obtain ⟨c, tail', rfl, hc⟩ := hstart x List.mem_cons_self cs hx
    rintro _ ⟨⟩
    exact hc

/-- A thing with white space behind it. -/
theorem reads_spaced {α : Type} {p : Parser α} {cs blank : List Char} {good : α → Prop}
    (h : Reads p cs (blank ++ rest) good) (hblank : Blank blank)
    (hspace : ∀ c ∈ rest.head?, Parser.isSpace c = false) :
    Reads (do let a ← p; Parser.spaces; return a) (cs ++ blank) rest good := by
  apply Reads.bind h
  intro a ha
  apply Reads.bind_pure (reads_spaces (fun c hc => isSpace_iff.mpr (hblank c hc)) hspace)
  exact fun _ _ => ha

/-- Things are read one behind the other, where each is read in front of white space and of what
follows them all. -/
theorem reads_spread {α : Type} {p : Parser α} {written : α → List Char → Prop} {bare : α → α}
    {follows : List Char → Prop}
    (hblank : ∀ blank tail, blank ≠ [] → Blank blank → follows (blank ++ tail))
    (hfollows : follows rest) (hspace : ∀ c ∈ rest.head?, Parser.isSpace c = false)
    (hmiss : Misses p rest) {xs : List α} {text : List Char} (h : Spread written xs text)
    (hread : ∀ x ∈ xs, ∀ cs tail, written x cs → cs.length ≤ text.length → follows tail →
      Reads p cs tail fun a => bare a = bare x)
    (hstart : ∀ x ∈ xs, ∀ cs, written x cs →
      ∃ c tail, cs = c :: tail ∧ Parser.isSpace c = false) :
    ReadsAll (do let a ← p; Parser.spaces; return a) text rest
      fun as => as.map bare = xs.map bare := by
  have hcons : ∀ {x xs a as}, bare a = bare x → as.map bare = xs.map bare →
      (a :: as).map bare = (x :: xs).map bare := by
    intro x xs a as ha has
    rw [List.map_cons, List.map_cons, ha, has]
  induction h with
  | nil => exact ReadsAll.nil hmiss.bind rfl
  | @last x cs blank first space =>
    obtain ⟨c, tail, rfl, -⟩ := hstart x List.mem_cons_self cs first
    have hfollow : follows (blank ++ rest) := by
      cases blank with
      | nil => exact hfollows
      | cons b blank => exact hblank _ rest (List.cons_ne_nil _ _) space
    have hlength : (c :: tail).length ≤ (c :: tail ++ blank).length := by
      rw [List.length_append]
      exact Nat.le_add_right _ _
    have hpiece := reads_spaced
      (hread x List.mem_cons_self _ (blank ++ rest) first hlength hfollow) space hspace
    have hend : ReadsAll (do let a ← p; Parser.spaces; return a) [] rest
        fun as => as.map bare = [].map bare := ReadsAll.nil hmiss.bind rfl
    rw [← List.append_nil (c :: tail ++ blank)]
    apply ReadsAll.cons (List.cons_ne_nil _ _) hpiece hend
    exact fun a as ha has => hcons ha has
  | @cons x y xs cs blank others first space gap hothers ih =>
    obtain ⟨c, tail, rfl, -⟩ := hstart x List.mem_cons_self cs first
    obtain ⟨hreadFirst, hread⟩ := List.forall_mem_cons.mp hread
    obtain ⟨-, hstart⟩ := List.forall_mem_cons.mp hstart
    -- What comes behind the white space begins with the next thing, not with white space.
    have hnext := hothers.noSpace_append hstart hspace
    have hlength : (c :: tail).length ≤ (c :: tail ++ (blank ++ others)).length := by
      rw [List.length_append]
      exact Nat.le_add_right _ _
    have hothersLength : others.length ≤ (c :: tail ++ (blank ++ others)).length := by
      rw [List.length_append, List.length_append]
      omega
    have hfollow : follows (blank ++ (others ++ rest)) := hblank blank _ gap space
    have hpiece := reads_spaced (hreadFirst _ _ first hlength hfollow) space hnext
    rw [← List.append_assoc]
    apply ReadsAll.cons (List.cons_ne_nil _ _) hpiece
    · apply ih _ hstart
      intro z hz cs tail hcs hle
      exact hread z hz cs tail hcs (Nat.le_trans hle hothersLength)
    · exact fun a as ha has => hcons ha has

/-! ### Chords -/

theorem endsProduct_blank {blank : List Char} (h : Blank blank) (hne : blank ≠ [])
    (tail : List Char) : EndsProduct (blank ++ tail) := by
  cases blank with
  | nil => exact absurd rfl hne
  | cons c blank =>
    rcases h c List.mem_cons_self with rfl | rfl | rfl | rfl
    all_goals exact endsProduct_cons rfl nofun nofun

/-- A chord is read wherever its last product ends, unless a volume is left out and one could be
read. -/
theorem reads_chord {fs : List ProductLiteral} {d : ProductLiteral} {v : Option ProductLiteral}
    {blank cs : List Char} (hblank : Blank blank)
    (hspread : Spread (fun (f : ProductLiteral) cs => cs = f.chars) fs cs)
    (hfs : ∀ f ∈ fs, f.Canonical) (hd : d.Canonical) (hv : ∀ w ∈ v, w.Canonical)
    (hrest : EndsProduct rest)
    (hvolume : v = none →
      Misses (do Parser.char ':'; Parser.expecting .volume Parser.product) rest) :
    Reads Parser.chord ('<' :: (blank ++ (cs ++ '>' :: ':' :: (d.chars ++ volumeChars v)))) rest
      fun e => e.bare = (Expr.chord fs d v).bare := by
  apply Reads.bind (reads_char '<' _)
  intro _ _
  apply Reads.commit
  have hstart : ∀ f ∈ fs, ∀ cs, cs = f.chars →
      ∃ c tail, cs = c :: tail ∧ Parser.isSpace c = false := by
    rintro f hf cs rfl
    obtain ⟨c, tail, hcs, hc⟩ := (hfs f hf).exists_chars
    exact ⟨c, tail, hcs, isSpace_eq_false_of_isDigit hc⟩
  -- Behind the frequencies a `>` ends the last of them, and it begins no other.
  have hclose : EndsProduct ('>' :: (':' :: (d.chars ++ volumeChars v) ++ rest)) :=
    endsProduct_cons rfl nofun nofun
  have hcloseSpace : ∀ c ∈ ('>' :: (':' :: (d.chars ++ volumeChars v) ++ rest)).head?,
      Parser.isSpace c = false := by
    rintro c ⟨⟩
    rfl
  have hnone : Misses Parser.product ('>' :: (':' :: (d.chars ++ volumeChars v) ++ rest)) :=
    misses_product (by rintro c ⟨⟩; rfl)
  apply Reads.bind (reads_spaces (fun c hc => isSpace_iff.mpr (hblank c hc)) _)
  · intro _ _
    have hfrequencies := reads_spread (fun blank tail hne hb => endsProduct_blank hb hne tail)
      hclose hcloseSpace hnone hspread
      (fun f hf cs tail hcs _ htail => hcs ▸ reads_product (hfs f hf) htail) hstart
    apply Reads.bind hfrequencies.many
    intro fs' hfs'
    apply Reads.bind (reads_required '>' _)
    intro _ _
    apply Reads.bind (reads_required ':' _)
    intro _ _
    apply Reads.imp (reads_durationAndVolume (fun htail => (reads_product hd htail).expecting)
      (fun w hw _ htail => (reads_product (hv w hw) htail).expecting) hrest hvolume)
    rintro _ ⟨d', v', rfl, hd', hv'⟩
    show Expr.chord (fs'.map ProductLiteral.bare) d'.bare (v'.map ProductLiteral.bare) = _
    rw [hfs', hd', hv']
    rfl
  · rw [List.append_assoc]
    exact hspread.noSpace_append hstart hcloseSpace

theorem misses_chord (h : rest.head? ≠ some '<') : Misses Parser.chord rest :=
  (misses_char h).bind

/-! ### Sequences and groups -/

/-- A text in front of which an item ends. -/
def EndsItem (rest : List Char) : Prop :=
  ∀ c ∈ rest.head?, Parser.isSpace c = true ∨ c = ')' ∨ c = ';'

/-- A text in front of which a sequence ends. -/
def EndsSequence (rest : List Char) : Prop := ∀ c ∈ rest.head?, c = ')' ∨ c = ';'

/-- A parser reads the items of texts up to a length, and misses where none begins. -/
structure ReadsItems (p : Parser Expr) (bound : Nat) : Prop where
  reads : ∀ {e : Expr} {cs rest}, e.Canonical → e.Written cs → cs.length ≤ bound → EndsItem rest →
    Reads p cs rest fun a => a.bare = e.bare
  misses : ∀ {rest}, EndsSequence rest → Misses p rest

theorem EndsItem.of_blank {blank : List Char} (h : Blank blank) (hne : blank ≠ [])
    (tail : List Char) : EndsItem (blank ++ tail) := by
  cases blank with
  | nil => exact absurd rfl hne
  | cons c blank =>
    rintro _ ⟨⟩
    exact .inl (isSpace_iff.mpr (h c List.mem_cons_self))

theorem EndsSequence.endsItem (h : EndsSequence rest) : EndsItem rest :=
  fun c hc => .inr (h c hc)

theorem EndsSequence.noSpace (h : EndsSequence rest) :
    ∀ c ∈ rest.head?, Parser.isSpace c = false := by
  intro c hc
  rcases h c hc with rfl | rfl
  · rfl
  · rfl

/-- An item begins with a digit or with a bracket, and with a bracket if it is bracketed. -/
theorem Expr.exists_chars : ∀ (e : Expr) {cs : List Char}, e.Canonical → e.Written cs →
    ∃ c tail, cs = c :: tail ∧ (c.isDigit = true ∨ c = '<' ∨ c = '(') ∧
      (e.isBracketed = true → c = '<' ∨ c = '(')
  | .note f d v, _, .note hf _ _, .note => by
    obtain ⟨c, tail, hcs, hc⟩ := hf.exists_chars
    exact ⟨c, _, by rw [hcs, List.cons_append], .inl hc, nofun⟩
  | .chord fs d v, _, _, .chord _ _ => ⟨'<', _, rfl, .inr (.inl rfl), fun _ => .inl rfl⟩
  | .group es, _, _, .group _ _ => ⟨'(', _, rfl, .inr (.inr rfl), fun _ => .inr rfl⟩
  | .multiply f body, _, .multiply hf _ _, .multiply _ => by
    obtain ⟨c, tail, hcs, hc⟩ := hf.exists_chars
    exact ⟨c, _, by rw [hcs, List.cons_append], .inl hc, nofun⟩
  | .amplify body f, _, .amplify _ hbody _, .amplify hwritten => by
    obtain ⟨c, tail, rfl, hc, hbracketed⟩ := Expr.exists_chars body hbody hwritten
    exact ⟨c, _, List.cons_append .., hc, hbracketed⟩

theorem ReadsItems.reads_sequence {p : Parser Expr} {bound : Nat} (h : ReadsItems p bound)
    {es : List Expr} {blank text : List Char} (hes : ∀ e ∈ es, e.Canonical) (hblank : Blank blank)
    (htext : Spread Expr.Written es text) (hbound : text.length ≤ bound)
    (hrest : EndsSequence rest) :
    Reads (Parser.sequence p) (blank ++ text) rest
      fun as => as.map Expr.bare = es.map Expr.bare := by
  have hstart : ∀ e ∈ es, ∀ cs, e.Written cs →
      ∃ c tail, cs = c :: tail ∧ Parser.isSpace c = false := by
    intro e he cs hcs
    obtain ⟨c, tail, rfl, hc, -⟩ := e.exists_chars (hes e he) hcs
    refine ⟨c, tail, rfl, ?_⟩
    rcases hc with hc | rfl | rfl
    · exact isSpace_eq_false_of_isDigit hc
    · rfl
    · rfl
  have hspace := htext.noSpace_append hstart hrest.noSpace
  apply Reads.bind (reads_spaces (fun c hc => isSpace_iff.mpr (hblank c hc)) hspace)
  intro _ _
  apply ReadsAll.many
  apply reads_spread (fun blank tail hne hb => EndsItem.of_blank hb hne tail) hrest.endsItem
    hrest.noSpace (h.misses hrest) htext _ hstart
  intro e he cs tail hcs hlength htail
  exact h.reads (hes e he) hcs (Nat.le_trans hlength hbound) htail

/-- What ends a sequence inside a group. -/
theorem endsSequence_close (rest : List Char) : EndsSequence ([')'] ++ rest) := by
  rintro c ⟨⟩
  exact .inl rfl

theorem reads_group {p : Parser Expr} {es : List Expr} {text : List Char}
    (h : Reads (Parser.sequence p) text ([')'] ++ rest)
      fun as => as.map Expr.bare = es.map Expr.bare) :
    Reads (Parser.group p) ('(' :: (text ++ [')'])) rest
      fun e => e.bare = (Expr.group es).bare := by
  apply Reads.bind (reads_char '(' _)
  intro _ _
  apply Reads.commit
  apply Reads.bind h
  intro es' hes'
  apply Reads.bind_pure (reads_required ')' rest)
  intro _ _
  rw [Expr.bare, Expr.bare, Expr.bareItems_eq_map, Expr.bareItems_eq_map, hes']

theorem ReadsItems.reads_group {p : Parser Expr} {bound : Nat} (h : ReadsItems p bound)
    {es : List Expr} {blank text : List Char} (hes : ∀ e ∈ es, e.Canonical) (hblank : Blank blank)
    (htext : Spread Expr.Written es text) (hbound : text.length ≤ bound) :
    Reads (Parser.group p) ('(' :: (blank ++ (text ++ [')']))) rest
      fun e => e.bare = (Expr.group es).bare := by
  rw [← List.append_assoc]
  exact Notation.reads_group
    (h.reads_sequence hes hblank htext hbound (endsSequence_close rest))

theorem misses_group {p : Parser Expr} (h : rest.head? ≠ some '(') :
    Misses (Parser.group p) rest := (misses_char h).bind

/-! ### Atoms -/

/-- What volume factors can be put behind, without any. -/
def Expr.IsAtom : Expr → Prop
  | .note .. | .chord .. | .group _ => True
  | .multiply .. | .amplify .. => False

/-- The text of volume factors. -/
def factorsChars (fs : List ProductLiteral) : List Char :=
  fs.flatMap fun f => '*' :: '*' :: f.chars

/-- An item that is not multiplied is an atom and the volume factors behind it. -/
theorem Expr.exists_atom : ∀ (e : Expr) {cs : List Char}, e.isMultiply = false → e.Canonical →
    e.Written cs → ∃ atom factors text, e = factors.foldl .amplify atom ∧ atom.IsAtom ∧
      atom.Canonical ∧ atom.Written text ∧ (∀ f ∈ factors, f.Canonical) ∧
      cs = text ++ factorsChars factors
  | .note f d v, _, _, hcanonical, hwritten =>
    ⟨.note f d v, [], _, rfl, trivial, hcanonical, hwritten, nofun, (List.append_nil _).symm⟩
  | .chord fs d v, _, _, hcanonical, hwritten =>
    ⟨.chord fs d v, [], _, rfl, trivial, hcanonical, hwritten, nofun, (List.append_nil _).symm⟩
  | .group es, _, _, hcanonical, hwritten =>
    ⟨.group es, [], _, rfl, trivial, hcanonical, hwritten, nofun, (List.append_nil _).symm⟩
  | .amplify body f, _, _, .amplify hsingle hbody hf, .amplify hwritten => by
    obtain ⟨atom, factors, text, rfl, hatom, hcanonical, htext, hfactors, rfl⟩ :=
      Expr.exists_atom body hsingle hbody hwritten
    refine ⟨atom, factors ++ [f], text, ?_, hatom, hcanonical, htext, ?_, ?_⟩
    · rw [List.foldl_append]
      rfl
    · exact List.forall_mem_append.mpr ⟨hfactors, List.forall_mem_singleton.mpr hf⟩
    · rw [factorsChars, factorsChars, List.flatMap_append, List.append_assoc, List.flatMap_singleton]

theorem EndsItem.endsAtom (h : EndsItem rest) : EndsAtom rest := by
  cases rest with
  | nil => exact ⟨⟨nofun, nofun, nofun⟩, nofun⟩
  | cons c tail =>
    rcases h c rfl with hspace | rfl | rfl
    · rcases isSpace_iff.mp hspace with rfl | rfl | rfl | rfl
      all_goals exact ⟨endsProduct_cons rfl nofun nofun, nofun⟩
    · exact ⟨endsProduct_cons rfl nofun nofun, nofun⟩
    · exact ⟨endsProduct_cons rfl nofun nofun, nofun⟩

/-- Atoms end, and so do products, in front of volume factors. -/
theorem EndsAtom.factors_append (h : EndsAtom rest) (fs : List ProductLiteral) :
    EndsAtom (factorsChars fs ++ rest) := by
  cases fs with
  | nil => exact h
  | cons f fs =>
    refine ⟨endsProduct_cons rfl nofun ?_, nofun⟩
    rintro - d ⟨⟩
    rfl

theorem ReadsItems.reads_atom {p : Parser Expr} {bound : Nat} (h : ReadsItems p bound) {e : Expr}
    {text : List Char} (hatom : e.IsAtom) (hcanonical : e.Canonical) (htext : e.Written text)
    (hbound : text.length ≤ bound + 1) (hrest : EndsAtom rest) :
    Reads (Parser.atom p) text rest fun a => a.bare = e.bare := by
  cases hcanonical with
  | note hf hd hv =>
    cases htext
    exact Reads.orElse (reads_note hf hd hv hrest)
  | chord hfs hd hv =>
    cases htext with
    | chord hblank hspread =>
      -- The first character decides: no note begins with a bracket.
      apply Reads.orElse_of_misses (misses_note (by rintro c ⟨⟩; rfl))
      exact Reads.orElse (reads_chord hblank hspread hfs hd hv hrest.product
        fun _ => hrest.misses_volume _)
  | group hes =>
    cases htext with
    | group hblank hspread =>
      apply Reads.orElse_of_misses (misses_note (by rintro c ⟨⟩; rfl))
      apply Reads.orElse_of_misses (misses_chord fun hc => by cases hc)
      apply h.reads_group hes hblank hspread
      simp only [List.length_cons, List.length_append] at hbound
      omega
  | multiply => exact hatom.elim
  | amplify => exact hatom.elim

theorem EndsItem.noDigit (h : EndsItem rest) : ∀ c ∈ rest.head?, c.isDigit = false := by
  intro c hc
  rcases h c hc with hspace | rfl | rfl
  · rcases isSpace_iff.mp hspace with rfl | rfl | rfl | rfl
    all_goals rfl
  · rfl
  · rfl

/-- What ends an item is no sign that goes on with one or begins one. -/
theorem EndsItem.head?_ne (h : EndsItem rest) {x : Char}
    (hx : Parser.isSpace x = false ∧ x ≠ ')' ∧ x ≠ ';') : rest.head? ≠ some x := by
  obtain ⟨hspace, hclose, hpart⟩ := hx
  intro hhead
  rcases h x hhead with hc | hc | hc
  · rw [hspace] at hc
    cases hc
  · exact hclose hc
  · exact hpart hc

/-- A text with which no item begins. -/
structure StartsNoItem (rest : List Char) : Prop where
  noDigit : ∀ c ∈ rest.head?, c.isDigit = false
  noChord : rest.head? ≠ some '<'
  noGroup : rest.head? ≠ some '('

theorem EndsItem.startsNoItem (h : EndsItem rest) : StartsNoItem rest :=
  ⟨h.noDigit, h.head?_ne (by decide), h.head?_ne (by decide)⟩

theorem misses_atom {p : Parser Expr} (h : StartsNoItem rest) : Misses (Parser.atom p) rest :=
  Misses.orElse (misses_note h.noDigit)
    (Misses.orElse (misses_chord h.noChord) (misses_group h.noGroup))

theorem misses_item (depth : Nat) (h : StartsNoItem rest) : Misses (Parser.item depth) rest := by
  cases depth with
  | zero => exact fun offset => ⟨_, rfl⟩
  | succ depth =>
    apply Misses.orElse
    · exact (misses_product h.noDigit).bind
    · exact (misses_atom h).bind

/-! ### Items -/

theorem reads_volumeFactors {fs : List ProductLiteral} (hfs : ∀ f ∈ fs, f.Canonical)
    (hstar : rest.head? ≠ some '*') (hrest : fs ≠ [] → EndsAtom rest) :
    ReadsAll (do
      Parser.char '*'
      Parser.char '*'
      Parser.commit (Parser.expecting .volumeRatio Parser.product)) (factorsChars fs) rest
      fun as => as.map ProductLiteral.bare = fs.map ProductLiteral.bare := by
  induction fs with
  | nil => exact ReadsAll.nil (Misses.bind (misses_char hstar)) rfl
  | cons f fs ih =>
    obtain ⟨hf, hfs⟩ := List.forall_mem_cons.mp hfs
    have hends := hrest (List.cons_ne_nil _ _)
    have hproduct := (hends.factors_append fs).product
    have hfactor : Reads (do
        Parser.char '*'
        Parser.char '*'
        Parser.commit (Parser.expecting .volumeRatio Parser.product)) ('*' :: '*' :: f.chars)
        (factorsChars fs ++ rest) fun a => a.bare = f.bare := by
      apply Reads.bind (reads_char '*' _)
      intro _ _
      apply Reads.bind (reads_char '*' _)
      intro _ _
      exact (reads_product hf hproduct).expecting.commit
    show ReadsAll _ (('*' :: '*' :: f.chars) ++ factorsChars fs) rest _
    apply ReadsAll.cons (List.cons_ne_nil _ _) hfactor (ih hfs fun _ => hends)
    intro a as ha has
    rw [List.map_cons, List.map_cons, ha, has]

theorem bare_foldl_amplify (fs : List ProductLiteral) (e : Expr) :
    (fs.foldl .amplify e).bare = (fs.map ProductLiteral.bare).foldl .amplify e.bare := by
  induction fs generalizing e with
  | nil => rfl
  | cons f fs ih =>
    rw [List.foldl_cons, ih, Expr.bare]
    rfl

/-- A product that a multiplied item could begin with has no `*` behind it in front of an
atom. -/
theorem misses_multiplied_atom {p : Parser Expr} {e : Expr} {text : List Char}
    (hatom : e.IsAtom) (hcanonical : e.Canonical) (htext : e.Written text) (tail : List Char) :
    Misses (Parser.multiplied p) (text ++ tail) := by
  cases htext with
  | note =>
    cases hcanonical with
    | note hf _ _ =>
      rw [List.append_assoc]
      -- The frequency of a note is read as a product, but a `:` stands behind it.
      apply Misses.bind_of_reads (reads_product hf (endsProduct_colon _))
      exact fun _ _ => Misses.bind (misses_char nofun)
  | chord => exact Misses.bind (misses_product (by rintro c ⟨⟩; rfl))
  | group => exact Misses.bind (misses_product (by rintro c ⟨⟩; rfl))
  | multiply => exact hatom.elim
  | amplify => exact hatom.elim

theorem reads_multiplied {p : Parser Expr} {f : ProductLiteral} {body : Expr} {cs : List Char}
    (hf : f.Canonical) (hbracket : ∃ c tail, cs = c :: tail ∧ (c = '<' ∨ c = '('))
    (hbody : Reads p cs rest fun a => a.bare = body.bare) :
    Reads (Parser.multiplied p) (f.chars ++ '*' :: cs) rest
      fun a => a.bare = (Expr.multiply f body).bare := by
  -- The factor ends at its `*`, because a bracket and no digit stands behind that.
  have hends : EndsProduct ('*' :: (cs ++ rest)) := by
    obtain ⟨c, tail, rfl, hc⟩ := hbracket
    refine endsProduct_cons rfl (fun hslash => by cases hslash) ?_
    rintro - d ⟨⟩
    rcases hc with rfl | rfl
    · rfl
    · rfl
  apply Reads.bind (reads_product hf hends)
  intro f' hf'
  apply Reads.bind (reads_char '*' _)
  intro _ _
  apply Reads.bind_pure hbody.expecting.commit
  intro body' hbody'
  rw [Expr.bare, Expr.bare, hf', hbody']

theorem ReadsItems.reads_multiplied {p : Parser Expr} {bound : Nat} (h : ReadsItems p bound)
    {f : ProductLiteral} {body : Expr} {cs : List Char} (hf : f.Canonical)
    (hbracketed : body.isBracketed = true) (hbody : body.Canonical) (hcs : body.Written cs)
    (hbound : cs.length ≤ bound) (hrest : EndsItem rest) :
    Reads (Parser.multiplied p) (f.chars ++ '*' :: cs) rest
      fun a => a.bare = (Expr.multiply f body).bare := by
  obtain ⟨c, tail, hstart, -, hbracket⟩ := body.exists_chars hbody hcs
  exact Notation.reads_multiplied hf ⟨c, tail, hstart, hbracket hbracketed⟩
    (h.reads hbody hcs hbound hrest)

theorem reads_amplified {p : Parser Expr} {atom : Expr} {factors : List ProductLiteral}
    {text : List Char}
    (hatom : Reads (Parser.atom p) text (factorsChars factors ++ rest) fun a => a.bare = atom.bare)
    (hfactors : ∀ f ∈ factors, f.Canonical) (hstar : rest.head? ≠ some '*')
    (hrest : factors ≠ [] → EndsAtom rest) :
    Reads (Parser.amplified p) (text ++ factorsChars factors) rest
      fun a => a.bare = (factors.foldl .amplify atom).bare := by
  apply Reads.bind hatom
  intro a ha
  apply Reads.bind_pure (reads_volumeFactors hfactors hstar hrest).many
  intro as has
  rw [bare_foldl_amplify, bare_foldl_amplify, ha, has]

theorem ReadsItems.reads_amplified {p : Parser Expr} {bound : Nat} (h : ReadsItems p bound)
    {atom : Expr} {factors : List ProductLiteral} {text : List Char} (hatom : atom.IsAtom)
    (hcanonical : atom.Canonical) (htext : atom.Written text) (hbound : text.length ≤ bound + 1)
    (hfactors : ∀ f ∈ factors, f.Canonical) (hrest : EndsItem rest) :
    Reads (Parser.amplified p) (text ++ factorsChars factors) rest
      fun a => a.bare = (factors.foldl .amplify atom).bare := by
  have hbehind := hrest.endsAtom.factors_append factors
  exact Notation.reads_amplified (h.reads_atom hatom hcanonical htext hbound hbehind) hfactors
    (hrest.head?_ne (by decide)) fun _ => hrest.endsAtom

/-- Items are read by a parser that is given at least the length of their text as its depth. -/
theorem readsItems (depth : Nat) : ReadsItems (Parser.item depth) depth := by
  induction depth with
  | zero =>
    -- No item has an empty text.
    constructor
    · intro e cs rest hcanonical hwritten hlength _
      obtain ⟨c, tail, rfl, -⟩ := e.exists_chars hcanonical hwritten
      cases hlength
    · exact fun hrest => misses_item 0 hrest.endsItem.startsNoItem
  | succ depth ih =>
    constructor
    · intro e cs rest hcanonical hwritten hlength hrest
      cases hmultiply : e.isMultiply with
      | true =>
        cases hcanonical with
        | multiply hf hbracketed hbody =>
          cases hwritten with
          | multiply hcs =>
            apply Reads.orElse
            apply ih.reads_multiplied hf hbracketed hbody hcs _ hrest
            simp only [List.length_append, List.length_cons] at hlength
            omega
        | note | chord | group | amplify => cases hmultiply
      | false =>
        obtain ⟨atom, factors, text, rfl, hatom, hcanonical, htext, hfactors, rfl⟩ :=
          e.exists_atom hmultiply hcanonical hwritten
        have hbound : text.length ≤ depth + 1 := by
          rw [List.length_append] at hlength
          omega
        -- The choice of a multiplied item comes first and must be missed, not committed to.
        apply Reads.orElse_of_misses
        · rw [List.append_assoc]
          exact misses_multiplied_atom hatom hcanonical htext _
        · exact ih.reads_amplified hatom hcanonical htext hbound hfactors hrest
    · exact fun hrest => misses_item (depth + 1) hrest.endsItem.startsNoItem

/-! ### Whole texts -/

theorem ReadsItems.reads_part {p : Parser Expr} {bound : Nat} (h : ReadsItems p bound)
    {es : List Expr} {text : List Char} (hes : ∀ e ∈ es, e.Canonical) (htext : WrittenPart es text)
    (hbound : text.length ≤ bound) (hrest : EndsSequence rest) :
    Reads (Parser.sequence p) text rest fun as => as.map Expr.bare = es.map Expr.bare := by
  obtain ⟨blank, items, hblank, hitems, rfl⟩ := htext
  rw [List.length_append] at hbound
  exact h.reads_sequence hes hblank hitems (by omega) hrest

theorem endsSequence_parts (texts : List (List Char)) :
    EndsSequence (texts.flatMap (';' :: ·) ++ []) := by
  intro c hc
  rcases head?_flatMap_append hc with rfl | hc
  · exact .inr rfl
  · cases hc

section Parts

variable {p : Parser Expr} {bound depth : Nat} {r : List Expr → List Char → Prop}
  {parts : List (List Expr)} {texts : List (List Char)}

/-- Parts behind the first, each with its sign before it, if each of them is read from its text. -/
theorem reads_parts
    (hread : ∀ part text rest, r part text → text.length ≤ bound → EndsSequence rest →
      Reads (Parser.sequence p) text rest fun as => as.map Expr.bare = part.map Expr.bare)
    (hparts : List.Forall₂ r parts texts) (hbound : ∀ text ∈ texts, text.length ≤ bound) :
    ReadsAll (do Parser.char ';'; Parser.sequence p) (texts.flatMap (';' :: ·)) []
      fun as => as.map Expr.bareItems = parts.map Expr.bareItems := by
  induction hparts with
  | nil => exact ReadsAll.nil (Misses.bind (misses_char nofun)) rfl
  | @cons part text parts texts hpart _ ih =>
    obtain ⟨htext, htexts⟩ := List.forall_mem_cons.mp hbound
    have hfirst : Reads (do Parser.char ';'; Parser.sequence p) (';' :: text)
        (texts.flatMap (';' :: ·) ++ [])
        fun as => as.map Expr.bare = part.map Expr.bare := by
      apply Reads.bind (reads_char ';' _)
      intro _ _
      exact hread part text _ hpart htext (endsSequence_parts texts)
    rw [List.flatMap_cons]
    apply ReadsAll.cons (List.cons_ne_nil _ _) hfirst (ih htexts)
    intro a as ha has
    rw [List.map_cons, List.map_cons, Expr.bareItems_eq_map, Expr.bareItems_eq_map, ha, has]

/-- A tree is read from the texts of its parts, if each part is read from its text. -/
theorem reads_tree_of_parts
    (hread : ∀ part text rest, r part text → text.length ≤ depth → EndsSequence rest →
      Reads (Parser.sequence (Parser.item depth)) text rest
        fun as => as.map Expr.bare = part.map Expr.bare)
    (hne : parts ≠ []) (hparts : List.Forall₂ r parts texts)
    (hdepth : ([';'].intercalate texts).length ≤ depth) :
    Reads (Parser.tree depth) ([';'].intercalate texts) []
      fun t => t.bare = (Tree.mk parts).bare := by
  cases hparts with
  | nil => exact absurd rfl hne
  | @cons part text parts texts hpart hparts =>
    rw [intercalate_cons] at hdepth ⊢
    rw [List.length_append] at hdepth
    have htext : text.length ≤ depth := Nat.le_trans (Nat.le_add_right _ _) hdepth
    have htexts : ∀ other ∈ texts, other.length ≤ depth := by
      intro other hother
      have hmem : (';' :: other).Sublist (texts.flatMap (';' :: ·)) := by
        rw [List.flatMap_def]
        exact List.sublist_flatten_of_mem (List.mem_map_of_mem hother)
      have hlength := hmem.length_le
      rw [List.length_cons] at hlength
      omega
    apply Reads.bind (hread part text _ hpart htext (endsSequence_parts texts))
    intro as has
    apply Reads.bind_pure (reads_parts hread hparts htexts).many
    intro ass hass
    show Tree.mk (Expr.bareItems as :: ass.map Expr.bareItems) = _
    rw [Expr.bareItems_eq_map, has, hass, ← Expr.bareItems_eq_map]
    rfl

end Parts

theorem reads_tree {t : Tree} {cs : List Char} {depth : Nat} (ht : t.Canonical)
    (h : t.Written cs) (hdepth : cs.length ≤ depth) :
    Reads (Parser.tree depth) cs [] fun t' => t'.bare = t.bare := by
  obtain ⟨texts, hparts, rfl⟩ := h
  have hcanonical := (List.forall₂_and_left _ _).mpr ⟨ht.items, hparts⟩
  apply reads_tree_of_parts _ ht.nonempty hcanonical hdepth
  rintro part text rest ⟨hes, htext⟩ hlength hrest
  exact (readsItems depth).reads_part hes htext hlength hrest

/-- A text that is read to its end is accepted. -/
theorem parse_of_reads {t : Tree} {source : String}
    (h : Reads (Parser.tree (source.toList.length + 1)) source.toList []
      fun t' => t'.bare = t.bare) : ∃ t', Tree.parse source = .ok t' ∧ t'.bare = t.bare := by
  obtain ⟨t', stop, hrun, hbare⟩ := h 0
  rw [List.append_nil] at hrun
  refine ⟨t', ?_, hbare⟩
  simp only [Tree.parse, hrun, List.isEmpty_nil, if_true]

/-- Every text of a canonical tree, whatever its white space, is accepted and read as that tree,
up to the places of its integers. -/
theorem parse_of_written {t : Tree} {source : String} (ht : t.Canonical)
    (h : t.Written source.toList) : ∃ t', Tree.parse source = .ok t' ∧ t'.bare = t.bare := by
  obtain ⟨t', stop, hrun, hbare⟩ := reads_tree ht h (Nat.le_succ _) 0
  rw [List.append_nil] at hrun
  refine ⟨t', ?_, hbare⟩
  simp only [Tree.parse, hrun, List.isEmpty_nil, if_true]

/-! ### A small text -/

/-- A product of one ratio, the denominator of which may be left out. -/
def ProductLiteral.single (numerator : String) (denominator : Option String) : ProductLiteral :=
  ⟨[⟨⟨numerator, 0, 0⟩, denominator.map fun d => ⟨d, 0, 0⟩⟩]⟩

/-- A chord whose volumes and then frequencies are scaled, and a group of one note. -/
def Tree.scaledChord : Tree :=
  let chord := Expr.chord [.single "1" none, .single "5" (some "4")] (.single "2" none) none
  let note := Expr.note (.single "3" (some "2")) (.single "1" none) (some (.single "1" (some "2")))
  ⟨[[.multiply (.single "4" none) (.amplify chord (.single "3" none)), .group [note]], []]⟩

theorem Tree.scaledChord_canonical : Tree.scaledChord.Canonical := by
  have hchord : (Expr.chord [.single "1" none, .single "5" (some "4")] (.single "2" none)
      none).Canonical :=
    .chord (by decide +kernel) (by decide +kernel) nofun
  have hnote : (Expr.note (.single "3" (some "2")) (.single "1" none)
      (some (.single "1" (some "2")))).Canonical :=
    .note (by decide +kernel) (by decide +kernel) (by decide +kernel)
  refine ⟨List.cons_ne_nil _ _, ?_⟩
  intro part hpart e he
  rcases List.mem_pair.mp hpart with rfl | rfl
  · rcases List.mem_pair.mp he with rfl | rfl
    · exact .multiply (by decide +kernel) rfl (.amplify rfl hchord (by decide +kernel))
    · apply Expr.Canonical.group
      intro e he
      rwa [List.mem_singleton.mp he]
  · cases he

theorem parse_scaledChord : Tree.scaledChord.Canonical ∧
    Tree.scaledChord.Written "4*< 1 5/4>:2**3\n(3/2:1:1/2 );".toList ∧
    ∃ t', Tree.parse "4*< 1 5/4>:2**3\n(3/2:1:1/2 );" = .ok t' ∧ t'.bare = Tree.scaledChord.bare := by
  have hspace : Blank [' '] := List.forall_mem_singleton.mpr (.inl rfl)
  have hline : Blank ['\n'] := List.forall_mem_singleton.mpr (.inr (.inr (.inr rfl)))
  have hnone : Blank [] := nofun
  have hchord : (Expr.chord [.single "1" none, .single "5" (some "4")] (.single "2" none)
      none).Written "< 1 5/4>:2".toList :=
    .chord hspace (.cons rfl hspace (List.cons_ne_nil _ _) (.last rfl hnone))
  have hnote : (Expr.note (.single "3" (some "2")) (.single "1" none)
      (some (.single "1" (some "2")))).Written "3/2:1:1/2".toList := .note
  have hwritten : Tree.scaledChord.Written "4*< 1 5/4>:2**3\n(3/2:1:1/2 );".toList := by
    refine ⟨["4*< 1 5/4>:2**3\n(3/2:1:1/2 )".toList, []], ?_, rfl⟩
    refine .cons ?_ (.cons ?_ .nil)
    · exact ⟨[], _, hnone, .cons (.multiply (.amplify hchord)) hline (List.cons_ne_nil _ _)
        (.last (.group hnone (.last hnote hspace)) hnone), rfl⟩
    · exact ⟨[], [], hnone, .nil, rfl⟩
  exact ⟨Tree.scaledChord_canonical, hwritten,
    parse_of_written Tree.scaledChord_canonical hwritten⟩

end JustIntonation.Notation
