/-
JustIntonation/Proofs/Notation/Completion.lean

A malformed text is refused in time.

The place at which a text is refused is never behind the point at which it
stopped making sense: what stands before that place can be completed to a text
that is accepted.  A failure is traced back along the grammar.  It stands
behind some text that was taken off (`FailsBehind`), and at each of the
few places where the parser gives up for good, a digit or a closing bracket
completes the construct that was begun; what was read before it stands for
itself (`Stands`) and so is read again in front of the completion.

Main result: the text before a syntax error can be completed
(`completable_of_parse_error`).
-/
import JustIntonation.Proofs.Notation.Rereading

namespace JustIntonation.Notation

open Text (byteLength)

variable {α β : Type} {p q : Parser α} {f : Failure} {c next mid : Cursor} {e : Expr}
  {cs ds rest : List Char} {depth : ℕ}

/-! ### Parsers that have failed -/

section Failing

theorem bind_eq_miss {g : α → Parser β} : (p >>= g) c = .miss f ↔
    p c = .miss f ∨ ∃ a mid, p c = .done a mid ∧ g a mid = .miss f := by
  show Parser.andThen p g c = _ ↔ _
  rw [Parser.andThen]
  cases p c with
  | done a mid =>
    constructor
    · exact fun hrun => .inr ⟨a, mid, rfl, hrun⟩
    · rintro (hfirst | ⟨_, _, ⟨⟩, hrun⟩)
      · cases hfirst
      · exact hrun
  | miss e => simp
  | fatal e => simp

theorem orElse_eq_miss : p.orElse q c = .miss f ↔ (∃ e, p c = .miss e) ∧ q c = .miss f := by
  rw [Parser.orElse]
  cases p c <;> simp

theorem orElse_eq_fatal : p.orElse q c = .fatal f ↔
    p c = .fatal f ∨ (∃ e, p c = .miss e) ∧ q c = .fatal f := by
  rw [Parser.orElse]
  cases p c <;> simp

theorem commit_eq_fatal : p.commit c = .fatal f ↔ p c = .fatal f ∨ p c = .miss f := by
  rw [Parser.commit]
  cases p c <;> simp

theorem commit_ne_miss : p.commit c ≠ .miss f := by
  rw [Parser.commit]
  cases p c <;> simp

theorem optional_eq_fatal : p.optional c = .fatal f ↔ p c = .fatal f := by
  rw [Parser.optional]
  cases p c <;> simp

theorem optional_ne_miss : p.optional c ≠ .miss f := by
  rw [Parser.optional]
  cases p c <;> simp

/-- A name for what stands here does not move a failure. -/
theorem offset_of_expecting {what : Expectation} (h : p.expecting what c = .miss f) :
    ∃ e, p c = .miss e ∧ f.offset = e.offset := by
  rw [Parser.expecting] at h
  cases hrun : p c with
  | done a mid => simp [hrun] at h
  | miss e =>
    simp only [hrun, Outcome.miss.injEq] at h
    exact ⟨e, rfl, by rw [← h]⟩
  | fatal e => simp [hrun] at h

theorem offset_of_expecting_fatal {what : Expectation} (h : p.expecting what c = .fatal f) :
    ∃ e, p c = .fatal e ∧ f.offset = e.offset := by
  rw [Parser.expecting] at h
  cases hrun : p c with
  | done a mid => simp [hrun] at h
  | miss e => simp [hrun] at h
  | fatal e =>
    simp only [hrun, Outcome.fatal.injEq] at h
    exact ⟨e, rfl, by rw [← h]⟩

theorem repeatUpTo_ne_miss (bound : ℕ) : p.repeatUpTo bound c ≠ .miss f := by
  induction bound generalizing c f with
  | zero =>
    intro hrun
    cases hrun
  | succ bound ih =>
    simp only [Parser.repeatUpTo]
    cases p c with
    | miss _ => simp
    | fatal _ => simp
    | done a mid =>
      dsimp only
      cases hothers : p.repeatUpTo bound mid with
      | done as last => simp
      | miss e => exact absurd hothers ih
      | fatal e => simp

theorem many_ne_miss : p.many c ≠ .miss f := repeatUpTo_ne_miss _

/-- A repetition that has failed is a piece that has failed, or a piece in front of such a
repetition. -/
theorem many_fatal_induction {motive : Cursor → Prop}
    (here : ∀ {c}, p c = .fatal f → motive c)
    (cons : ∀ {c a mid}, p c = .done a mid → motive mid → motive c)
    (h : p.many c = .fatal f) : motive c := by
  rw [Parser.many] at h
  generalize c.rest.length = bound at h
  induction bound generalizing c with
  | zero => cases h
  | succ bound ih =>
    simp only [Parser.repeatUpTo] at h
    cases hfirst : p c with
    | miss e => simp [hfirst] at h
    | fatal e =>
      simp only [hfirst] at h
      obtain rfl := Outcome.fatal.inj h
      exact here hfirst
    | done a mid =>
      simp only [hfirst] at h
      cases hothers : p.repeatUpTo bound mid with
      | done as last => simp [hothers] at h
      | miss e => exact absurd hothers (repeatUpTo_ne_miss bound)
      | fatal e =>
        simp only [hothers] at h
        exact cons hfirst (ih (hothers.trans h))

end Failing

/-! ### Parsers that never give up for good -/

/-- A parser without anything committed in it. -/
def Harmless (p : Parser α) : Prop := ∀ c f, p c ≠ .fatal f

theorem Harmless.bind {g : α → Parser β} (hp : Harmless p) (hg : ∀ a, Harmless (g a)) :
    Harmless (p >>= g) := by
  intro c f h
  obtain hfirst | ⟨a, mid, -, hsecond⟩ := bind_eq_fatal.mp h
  · exact hp c f hfirst
  · exact hg a mid f hsecond

theorem harmless_pure (a : α) : Harmless (pure a : Parser α) := fun _ _ => nofun

theorem Harmless.optional (hp : Harmless p) : Harmless p.optional :=
  fun c f h => hp c f (optional_eq_fatal.mp h)

theorem Harmless.expecting (hp : Harmless p) (what : Expectation) :
    Harmless (p.expecting what) := by
  intro c f h
  obtain ⟨e, he, -⟩ := offset_of_expecting_fatal h
  exact hp c e he

theorem Harmless.many (hp : Harmless p) : Harmless p.many := fun _ f h =>
  many_fatal_induction (motive := fun _ => False) (fun hfirst => hp _ f hfirst)
    (fun _ hothers => hothers) h

theorem harmless_char (x : Char) : Harmless (Parser.char x) := char_ne_fatal x

theorem harmless_required (x : Char) : Harmless (Parser.required x) :=
  (harmless_char x).expecting _

theorem harmless_spaces : Harmless Parser.spaces := fun _ _ => nofun

theorem harmless_integer : Harmless Parser.integer := integer_ne_fatal

theorem harmless_ratio : Harmless Parser.ratio :=
  harmless_integer.bind fun _ =>
    ((harmless_char '/').bind fun _ => harmless_integer).optional.bind fun _ => harmless_pure _

theorem harmless_product : Harmless Parser.product :=
  harmless_ratio.bind fun _ =>
    ((harmless_char '*').bind fun _ => harmless_ratio).many.bind fun _ => harmless_pure _

/-! ### Where parsers miss -/

theorem offset_of_char {x : Char} (h : Parser.char x c = .miss f) : f.offset = c.offset := by
  obtain ⟨offset, rest⟩ := c
  cases rest with
  | nil =>
    obtain rfl := Outcome.miss.inj h
    rfl
  | cons y rest =>
    simp only [Parser.char] at h
    split_ifs at h
    obtain rfl := Outcome.miss.inj h
    rfl

theorem offset_of_required {x : Char} (h : Parser.required x c = .miss f) :
    f.offset = c.offset := by
  obtain ⟨e, he, hoffset⟩ := offset_of_expecting h
  rw [hoffset, offset_of_char he]

theorem offset_of_product (h : Parser.product c = .miss f) : f.offset = c.offset := by
  -- Behind its first digits a product may end anywhere.
  have hinteger : Parser.integer c = .miss f := by
    obtain hratio | ⟨r, mid, -, hothers⟩ := bind_eq_miss.mp h
    · obtain hinteger | ⟨n, mid, -, hothers⟩ := bind_eq_miss.mp hratio
      · exact hinteger
      · obtain hoptional | ⟨_, _, -, hpure⟩ := bind_eq_miss.mp hothers
        · exact absurd hoptional optional_ne_miss
        · cases hpure
    · obtain hmany | ⟨_, _, -, hpure⟩ := bind_eq_miss.mp hothers
      · exact absurd hmany many_ne_miss
      · cases hpure
  obtain ⟨e, he, hoffset⟩ := offset_of_expecting hinteger
  simp only [Parser.digits] at he
  split_ifs at he
  obtain rfl := Outcome.miss.inj he
  exact hoffset

/-- A product that must stand here fails here. -/
theorem offset_of_committed {what : Expectation}
    (h : Parser.commit (Parser.expecting what Parser.product) c = .fatal f) :
    f.offset = c.offset := by
  obtain hfatal | hmiss := commit_eq_fatal.mp h
  · exact absurd hfatal (harmless_product.expecting what c f)
  · obtain ⟨e, he, hoffset⟩ := offset_of_expecting hmiss
    rw [hoffset, offset_of_product he]

/-- An item that is missed is missed where it would begin. -/
theorem offset_of_item (h : Parser.item depth c = .miss f) : f.offset = c.offset := by
  cases depth with
  | zero =>
    obtain rfl := Outcome.miss.inj h
    rfl
  | succ depth =>
    obtain ⟨-, hamplified⟩ := orElse_eq_miss.mp h
    obtain hatom | ⟨_, _, -, hothers⟩ := bind_eq_miss.mp hamplified
    · obtain ⟨-, hbracketed⟩ := orElse_eq_miss.mp hatom
      obtain ⟨-, hgroup⟩ := orElse_eq_miss.mp hbracketed
      obtain hopen | ⟨_, _, -, hcommit⟩ := bind_eq_miss.mp hgroup
      · exact offset_of_char hopen
      · exact absurd hcommit commit_ne_miss
    · obtain hmany | ⟨_, _, -, hpure⟩ := bind_eq_miss.mp hothers
      · exact absurd hmany many_ne_miss
      · cases hpure

theorem sequence_ne_miss {item : Parser Expr} : Parser.sequence item c ≠ .miss f := by
  intro h
  obtain hspaces | ⟨_, _, -, hmany⟩ := bind_eq_miss.mp h
  · cases hspaces
  · exact many_ne_miss hmany

/-! ### Where parsers give up -/

/-- A failure stands behind a text that was taken off. -/
def FailsBehind (c : Cursor) (f : Failure) (cs : List Char) : Prop :=
  ∃ rest, c.rest = cs ++ rest ∧ f.offset = c.offset + byteLength cs

theorem failsBehind_nil (h : f.offset = c.offset) : FailsBehind c f [] := ⟨c.rest, rfl, h⟩

/-- The bytes of what a passage has taken off. -/
theorem Passage.offset_eq {ink : List Char} {ls : List Literal} (h : Passage c ink ls mid)
    (htext : c.rest = cs ++ mid.rest) : mid.offset = c.offset + byteLength cs := by
  obtain ⟨cs', hrest, hoffset, -⟩ := h.exists_text
  rw [hrest] at htext
  rw [hoffset, List.append_cancel_right htext]

theorem FailsBehind.append {ink : List Char} {ls : List Literal} (h : FailsBehind mid f ds)
    (hpassage : Passage c ink ls mid) (htext : c.rest = cs ++ mid.rest) :
    FailsBehind c f (cs ++ ds) := by
  obtain ⟨rest, hrest, hoffset⟩ := h
  refine ⟨rest, by rw [htext, hrest, List.append_assoc], ?_⟩
  rw [hoffset, hpassage.offset_eq htext, byteLength_append, Nat.add_assoc]

theorem FailsBehind.product {p : ProductLiteral} (h : FailsBehind mid f ds)
    (hp : Parser.product c = .done p mid) : FailsBehind c f (p.chars ++ ds) :=
  h.append (passage_product hp).1 (text_product hp).1

theorem FailsBehind.sign {x : Char} {u : Unit} (h : FailsBehind mid f ds)
    (hx : Parser.char x c = .done u mid) (hvisible : Parser.isSpace x = false) :
    FailsBehind c f (x :: ds) := by
  have htext : c.rest = [x] ++ mid.rest := text_sign hx
  exact h.append (passage_char hvisible hx) htext

/-! ### Atoms -/

/-- The product that completes what needs one. -/
def ProductLiteral.one : ProductLiteral := .single "1" none

theorem ProductLiteral.canonical_one : ProductLiteral.one.Canonical := by decide +kernel

/-- What stands before a failure can be completed to the text of an item. -/
def CompletesItem (c : Cursor) (f : Failure) : Prop :=
  ∃ cs ds e, FailsBehind c f cs ∧ StartsItem cs ∧ Stands e (cs ++ ds)

/-- What stands before a failure can be completed to the text of an atom. -/
def CompletesAtom (c : Cursor) (f : Failure) : Prop :=
  ∃ cs ds e, FailsBehind c f cs ∧ StartsItem cs ∧ AtomStands e (cs ++ ds)

/-- What stands before a failure can be completed to the text of a part. -/
def CompletesPart (c : Cursor) (f : Failure) : Prop :=
  ∃ cs ds es, FailsBehind c f cs ∧ PartText es (cs ++ ds)

/-- A note is given up where its duration or its volume is missing. -/
theorem completes_note (h : Parser.note c = .fatal f) : CompletesAtom c f := by
  obtain hfrequency | ⟨frequency, c₁, hfrequency, h⟩ := bind_eq_fatal.mp h
  · exact absurd hfrequency (harmless_product c f)
  obtain hcolon | ⟨_, c₂, hcolon, h⟩ := bind_eq_fatal.mp h
  · exact absurd hcolon (harmless_char ':' c₁ f)
  have hfcanonical := (passage_product hfrequency).2
  obtain hduration | ⟨duration, c₃, hduration, h⟩ := bind_eq_fatal.mp h
  · have hbehind := ((failsBehind_nil (offset_of_committed hduration)).sign hcolon rfl).product
      hfrequency
    have hatom := atomStands_note
      (.note hfcanonical ProductLiteral.canonical_one nofun : Expr.Canonical (.note _ _ none))
    refine ⟨_, ['1'], .note frequency .one none, hbehind, .of_canonical hfcanonical _, ?_⟩
    rw [List.append_assoc]
    exact hatom
  have hd := expecting_eq_done.mp (commit_eq_done.mp hduration)
  obtain hvolume | ⟨_, _, -, hpure⟩ := bind_eq_fatal.mp h
  · obtain hcolon' | ⟨_, c₄, hcolon', hvolume⟩ := bind_eq_fatal.mp (optional_eq_fatal.mp hvolume)
    · exact absurd hcolon' (harmless_char ':' c₃ f)
    · have hbehind := ((((failsBehind_nil (offset_of_committed hvolume)).sign hcolon' rfl).product
        hd).sign hcolon rfl).product hfrequency
      have hnote : (Expr.note frequency duration (some .one)).Canonical :=
        .note hfcanonical (passage_product hd).2
          (by rintro _ ⟨⟩; exact ProductLiteral.canonical_one)
      refine ⟨_, ['1'], .note frequency duration (some .one), hbehind,
        .of_canonical hfcanonical _, ?_⟩
      rw [List.append_assoc, List.cons_append, List.append_assoc]
      exact atomStands_note hnote
  · cases hpure

/-- A chord is given up where a sign of it or its duration is missing; a volume that is missing
is left out. -/
theorem completes_chord (h : Parser.chord c = .fatal f) : CompletesAtom c f := by
  obtain hopen | ⟨_, c₁, hopen, h⟩ := bind_eq_fatal.mp h
  · exact absurd hopen (harmless_char '<' c f)
  obtain hfatal | hmiss := commit_eq_fatal.mp h
  · exact absurd hfatal (Harmless.bind harmless_spaces (fun _ =>
      (harmless_product.bind fun _ => harmless_spaces.bind fun _ => harmless_pure _).many.bind
      fun _ => (harmless_required _).bind fun _ => (harmless_required _).bind fun _ =>
      (harmless_product.expecting _).bind fun _ =>
      ((harmless_char _).bind fun _ => harmless_product.expecting _).optional.bind
      fun _ => harmless_pure _) c₁ f)
  obtain hspaces | ⟨_, c₂, hspaces, h⟩ := bind_eq_miss.mp hmiss
  · cases hspaces
  obtain hmany | ⟨frequencies, c₃, hmany, h⟩ := bind_eq_miss.mp h
  · exact absurd hmany many_ne_miss
  obtain ⟨blank, hblank, hinside, -⟩ := exists_blank hspaces
  obtain ⟨cs, htext, hcanonical, hspread⟩ := exists_spread hmany
  have hchord : (Expr.chord frequencies .one none).Canonical :=
    .chord hcanonical ProductLiteral.canonical_one nofun
  have hpassage := (passage_spaces hspaces).trans
    (passage_many (passage_spaced passage_product) hmany).1
  have hrest : c₁.rest = blank ++ cs ++ c₃.rest := by rw [hinside, htext, List.append_assoc]
  -- Whatever is missing, the text up to it goes on as that of the chord with the duration 1.
  have hcompletes : ∀ {ds ds'}, FailsBehind c₃ f ds → ds ++ ds' = ['>', ':', '1'] →
      CompletesAtom c f := by
    intro ds ds' hds hrow
    refine ⟨_, ds', .chord frequencies .one none, (hds.append hpassage hrest).sign hopen rfl,
      ⟨'<', _, rfl, .inr (.inl rfl)⟩, ?_⟩
    have hatom := atomStands_chord hchord hblank hspread
    rw [List.cons_append, List.append_assoc, List.append_assoc, hrow]
    exact hatom
  obtain hclose | ⟨_, c₄, hclose, h⟩ := bind_eq_miss.mp h
  · exact hcompletes (failsBehind_nil (offset_of_required hclose)) rfl
  have hclose' := expecting_eq_done.mp hclose
  obtain hcolon | ⟨_, c₅, hcolon, h⟩ := bind_eq_miss.mp h
  · exact hcompletes ((failsBehind_nil (offset_of_required hcolon)).sign hclose' rfl) rfl
  have hcolon' := expecting_eq_done.mp hcolon
  obtain hduration | ⟨_, c₆, -, h⟩ := bind_eq_miss.mp h
  · obtain ⟨e, he, hoffset⟩ := offset_of_expecting hduration
    have hbehind := failsBehind_nil (hoffset.trans (offset_of_product he))
    exact hcompletes ((hbehind.sign hcolon' rfl).sign hclose' rfl) rfl
  · obtain hvolume | ⟨_, _, -, hpure⟩ := bind_eq_miss.mp h
    · exact absurd hvolume optional_ne_miss
    · cases hpure

/-! ### Items -/

theorem EndsInteger.swap (h : EndsInteger (cs ++ rest)) (hstarts : StartsItem cs) :
    EndsInteger (cs ++ ds) := by
  obtain ⟨x, tail, rfl, -⟩ := hstarts
  exact h

/-- What is missing of an item completes the sequence that the item is in. -/
theorem completes_sequence (hitem : ∀ {c f}, Parser.item depth c = .fatal f → CompletesItem c f)
    (h : Parser.sequence (Parser.item depth) c = .fatal f) : CompletesPart c f := by
  obtain hspaces | ⟨_, c₁, hspaces, hitems⟩ := bind_eq_fatal.mp h
  · cases hspaces
  obtain ⟨blank, hblank, hrest, -⟩ := exists_blank hspaces
  obtain ⟨cs, ds, es, hbehind, -, hrow⟩ : ∃ cs ds es, FailsBehind c₁ f cs ∧ StartsItem cs ∧
      Row es (cs ++ ds) := by
    refine many_fatal_induction (motive := fun c => ∃ cs ds es, FailsBehind c f cs ∧
      StartsItem cs ∧ Row es (cs ++ ds)) ?_ ?_ hitems
    · intro c hpiece
      obtain hfatal | ⟨_, _, -, hspaces⟩ := bind_eq_fatal.mp hpiece
      · obtain ⟨cs, ds, e, hbehind, hstarts, hstands⟩ := hitem hfatal
        exact ⟨cs, ds, [e], hbehind, hstarts, .single hstands (hstarts.append ds)⟩
      · obtain hspaces | ⟨_, _, -, hpure⟩ := bind_eq_fatal.mp hspaces
        · cases hspaces
        · cases hpure
    · rintro c e mid hpiece ⟨cs, ds, es, hbehind, hstarts, hrow⟩
      have hpassage :=
        (passage_spaced (fun h => ⟨(itemRead_item depth h).passage, trivial⟩) hpiece).1
      simp only [bind_eq_done, pure_eq_done] at hpiece
      obtain ⟨e', c₁, he, _, c₂, hspaces, rfl, rfl⟩ := hpiece
      obtain ⟨first, htext⟩ := exists_itemText depth he
      obtain ⟨blank, hblank, hrest, -⟩ := exists_blank hspaces
      have hfirst : c.rest = first ++ blank ++ c₂.rest := by
        rw [htext.text, hrest, List.append_assoc]
      refine ⟨_, ds, e' :: es, hbehind.append hpassage hfirst, ?_, ?_⟩
      · rw [List.append_assoc]
        exact htext.starts.append _
      · rw [List.append_assoc, List.append_assoc]
        refine .cons htext.stands htext.starts hblank ?_ hrow
        -- Without white space, what stood behind the item is what the next one begins with.
        rintro rfl hopen
        obtain ⟨tail, hmid, -⟩ := hbehind
        have hends := htext.ends hopen
        rw [hrest, List.nil_append, hmid] at hends
        exact hends.swap hstarts
  refine ⟨blank ++ cs, ds, es, hbehind.append (passage_spaces hspaces) hrest,
    blank, _, hblank, hrow, ?_⟩
  rw [List.append_assoc]

theorem completes_group (hitem : ∀ {c f}, Parser.item depth c = .fatal f → CompletesItem c f)
    (h : Parser.group (Parser.item depth) c = .fatal f) : CompletesAtom c f := by
  have hstarts : ∀ tail, StartsItem ('(' :: tail) := fun tail => ⟨'(', tail, rfl, .inr (.inr rfl)⟩
  obtain hopen | ⟨_, c₁, hopen, h⟩ := bind_eq_fatal.mp h
  · exact absurd hopen (harmless_char '(' c f)
  obtain hfatal | hmiss := commit_eq_fatal.mp h
  · obtain hitems | ⟨_, c₂, -, hrest⟩ := bind_eq_fatal.mp hfatal
    · obtain ⟨cs, ds, es, hbehind, hpart⟩ := completes_sequence hitem hitems
      refine ⟨_, ds ++ [')'], .group es, hbehind.sign hopen rfl, hstarts cs, ?_⟩
      rw [List.cons_append, ← List.append_assoc]
      exact atomStands_group hpart
    · obtain hclose | ⟨_, _, -, hpure⟩ := bind_eq_fatal.mp hrest
      · exact absurd hclose (harmless_required ')' c₂ f)
      · cases hpure
  · obtain hitems | ⟨es, c₂, hitems, hrest⟩ := bind_eq_miss.mp hmiss
    · exact absurd hitems sequence_ne_miss
    · obtain hclose | ⟨_, _, -, hpure⟩ := bind_eq_miss.mp hrest
      · obtain ⟨cs, htext, hpart⟩ := exists_partText (exists_itemText depth) hitems
        have hbehind :=
          (failsBehind_nil (offset_of_required hclose)).append (passage_part hitems).1 htext
        rw [List.append_nil] at hbehind
        exact ⟨_, [')'], .group es, hbehind.sign hopen rfl, hstarts cs, atomStands_group hpart⟩
      · cases hpure

theorem completes_atom (hitem : ∀ {c f}, Parser.item depth c = .fatal f → CompletesItem c f)
    (h : Parser.atom (Parser.item depth) c = .fatal f) : CompletesAtom c f := by
  obtain hnote | ⟨-, hbracketed⟩ := orElse_eq_fatal.mp h
  · exact completes_note hnote
  obtain hchord | ⟨-, hgroup⟩ := orElse_eq_fatal.mp hbracketed
  · exact completes_chord hchord
  · exact completes_group hitem hgroup

/-- Behind a `**` a product is missing. -/
theorem completes_volumeFactors
    (h : Parser.many (do
      Parser.char '*'
      Parser.char '*'
      Parser.commit (Parser.expecting .volumeRatio Parser.product)) c = .fatal f) :
    ∃ cs fs, FailsBehind c f cs ∧ (∀ f ∈ fs, f.Canonical) ∧ cs ++ ['1'] = factorsChars fs := by
  refine many_fatal_induction (motive := fun c => ∃ cs fs, FailsBehind c f cs ∧
    (∀ f ∈ fs, f.Canonical) ∧ cs ++ ['1'] = factorsChars fs) ?_ ?_ h
  · intro c hfactor
    obtain hstar | ⟨_, c₁, hstar, hfactor⟩ := bind_eq_fatal.mp hfactor
    · exact absurd hstar (harmless_char '*' c f)
    obtain hstar' | ⟨_, c₂, hstar', hfactor⟩ := bind_eq_fatal.mp hfactor
    · exact absurd hstar' (harmless_char '*' c₁ f)
    have hbehind := failsBehind_nil (offset_of_committed hfactor)
    exact ⟨_, [.one], (hbehind.sign hstar' rfl).sign hstar rfl,
      List.forall_mem_singleton.mpr ProductLiteral.canonical_one, by decide +kernel⟩
  · rintro c g mid hfactor ⟨cs, fs, hbehind, hcanonical, htext⟩
    obtain ⟨hpassage, hg⟩ := passage_volumeFactor hfactor
    simp only [bind_eq_done, commit_eq_done, expecting_eq_done] at hfactor
    obtain ⟨_, c₁, hstar, _, c₂, hstar', hproduct⟩ := hfactor
    refine ⟨_, g :: fs, ((hbehind.product hproduct).sign hstar' rfl).sign hstar rfl,
      List.forall_mem_cons.mpr ⟨hg, hcanonical⟩, ?_⟩
    rw [factorsChars, List.flatMap_cons, ← factorsChars, ← htext]
    simp

theorem completes_amplified (hitem : ∀ {c f}, Parser.item depth c = .fatal f → CompletesItem c f)
    (h : Parser.amplified (Parser.item depth) c = .fatal f) : CompletesItem c f := by
  obtain hatom | ⟨body, c₁, hatom, h⟩ := bind_eq_fatal.mp h
  · obtain ⟨cs, ds, e, hbehind, hstarts, hstands⟩ := completes_atom hitem hatom
    exact ⟨cs, ds, e, hbehind, hstarts, hstands.stands_alone⟩
  obtain hfactors | ⟨_, _, -, hpure⟩ := bind_eq_fatal.mp h
  · obtain ⟨cs, htext⟩ := exists_atomText (exists_itemText depth) hatom
    obtain ⟨ds, fs, hbehind, hcanonical, hcompleted⟩ := completes_volumeFactors hfactors
    have hpassage := (itemRead_atom (itemRead_item depth) hatom).1.passage
    refine ⟨_, ['1'], fs.foldl .amplify body, hbehind.append hpassage htext.text,
      htext.stands.starts.append _, ?_⟩
    rw [List.append_assoc, hcompleted]
    exact htext.stands.stands hcanonical
  · cases hpure

/-- Behind a `*` a bracketed item is missing, at least the brackets. -/
theorem completes_multiplied (hitem : ∀ {c f}, Parser.item depth c = .fatal f → CompletesItem c f)
    (h : Parser.multiplied (Parser.item depth) c = .fatal f) : CompletesItem c f := by
  obtain hfactor | ⟨factor, c₁, hfactor, h⟩ := bind_eq_fatal.mp h
  · exact absurd hfactor (harmless_product c f)
  obtain hstar | ⟨_, c₂, hstar, h⟩ := bind_eq_fatal.mp h
  · exact absurd hstar (harmless_char '*' c₁ f)
  obtain hbody | ⟨_, _, -, hpure⟩ := bind_eq_fatal.mp h
  · have hcanonical := (passage_product hfactor).2
    obtain hfatal | hmiss := commit_eq_fatal.mp hbody
    · obtain ⟨e, he, hoffset⟩ := offset_of_expecting_fatal hfatal
      obtain ⟨cs, ds, body, ⟨rest, hrest, hbehind⟩, hstarts, hstands⟩ := hitem he
      have hends := endsInteger_of_star hfactor hstar
      rw [hrest] at hends
      have hbracket := (hstarts.append ds).bracket (hends.swap hstarts)
      have hbody : FailsBehind c₂ f cs := ⟨rest, hrest, hoffset.trans hbehind⟩
      refine ⟨_, ds, .multiply factor body, (hbody.sign hstar rfl).product hfactor,
        .of_canonical hcanonical _, ?_⟩
      rw [List.append_assoc]
      exact hstands.multiply hcanonical hbracket
    · obtain ⟨e, he, hoffset⟩ := offset_of_expecting hmiss
      have hbehind := failsBehind_nil (hoffset.trans (offset_of_item he))
      have hempty : PartText [] [] := ⟨[], [], nofun, .nil, rfl⟩
      have hbody := (atomStands_group hempty).stands_alone
      refine ⟨_, ['(', ')'], .multiply factor (.group []), (hbehind.sign hstar rfl).product hfactor,
        .of_canonical hcanonical _, ?_⟩
      rw [List.append_assoc]
      exact hbody.multiply hcanonical ⟨'(', _, rfl, .inr rfl⟩
  · cases hpure

/-- What is missing of an item that is given up can be added, however deep it is nested. -/
theorem completes_item (depth : ℕ) :
    ∀ {c f}, Parser.item depth c = .fatal f → CompletesItem c f := by
  induction depth with
  | zero => exact nofun
  | succ depth ih =>
    intro c f h
    obtain hmultiplied | ⟨-, hamplified⟩ := orElse_eq_fatal.mp h
    · exact completes_multiplied ih hmultiplied
    · exact completes_amplified ih hamplified

/-! ### Whole texts -/

theorem tree_ne_miss : Parser.tree depth c ≠ .miss f := by
  intro h
  obtain hpart | ⟨_, _, -, hothers⟩ := bind_eq_miss.mp h
  · exact sequence_ne_miss hpart
  · obtain hmany | ⟨_, _, -, hpure⟩ := bind_eq_miss.mp hothers
    · exact many_ne_miss hmany
    · cases hpure

theorem completes_tree (h : Parser.tree depth c = .fatal f) :
    ∃ cs ds parts texts, FailsBehind c f cs ∧ parts ≠ [] ∧ List.Forall₂ PartText parts texts ∧
      cs ++ ds = [';'].intercalate texts := by
  obtain hpart | ⟨part, c₁, hpart, h⟩ := bind_eq_fatal.mp h
  · obtain ⟨cs, ds, es, hbehind, htext⟩ := completes_sequence (completes_item depth) hpart
    exact ⟨cs, ds, [es], [cs ++ ds], hbehind, List.cons_ne_nil _ _, .cons htext .nil, by simp⟩
  obtain hmany | ⟨_, _, -, hpure⟩ := bind_eq_fatal.mp h
  · obtain ⟨text, hrest, htext⟩ := exists_partText (exists_itemText depth) hpart
    obtain ⟨cs, ds, parts, texts, hbehind, htexts, hothers⟩ :
        ∃ cs ds parts texts, FailsBehind c₁ f cs ∧ List.Forall₂ PartText parts texts ∧
          cs ++ ds = texts.flatMap (';' :: ·) := by
      refine many_fatal_induction (motive := fun c => ∃ cs ds parts texts, FailsBehind c f cs ∧
        List.Forall₂ PartText parts texts ∧ cs ++ ds = texts.flatMap (';' :: ·)) ?_ ?_ hmany
      · intro c hpiece
        obtain hsign | ⟨_, c₁, hsign, hpart⟩ := bind_eq_fatal.mp hpiece
        · exact absurd hsign (harmless_char ';' c f)
        · obtain ⟨cs, ds, es, hbehind, htext⟩ := completes_sequence (completes_item depth) hpart
          exact ⟨_, ds, [es], [cs ++ ds], hbehind.sign hsign rfl, .cons htext .nil, by simp⟩
      · rintro c part mid hpiece ⟨cs, ds, parts, texts, hbehind, htexts, hothers⟩
        obtain ⟨_, c₁, hsign, hpart⟩ := bind_eq_done.mp hpiece
        obtain ⟨text, hrest, htext⟩ := exists_partText (exists_itemText depth) hpart
        refine ⟨_, ds, part :: parts, text :: texts,
          (hbehind.append (passage_part hpart).1 hrest).sign hsign rfl, .cons htext htexts, ?_⟩
        rw [List.flatMap_cons, ← hothers]
        simp
    refine ⟨_, ds, part :: parts, text :: texts, hbehind.append (passage_part hpart).1 hrest,
      List.cons_ne_nil _ _, .cons htext htexts, ?_⟩
    rw [intercalate_cons, ← hothers, List.append_assoc]
  · cases hpure

/-- A string is as long as the bytes of its characters. -/
theorem byteLength_toList (s : String) : byteLength s.toList = s.utf8ByteSize := by
  have hlist : ∀ cs, byteLength cs = (String.ofList cs).utf8ByteSize := by
    intro cs
    induction cs with
    | nil => rfl
    | cons x cs ih =>
      rw [byteLength_cons, ih, String.ofList_cons, String.utf8ByteSize_append,
        String.utf8ByteSize_singleton]
  rw [hlist, String.ofList_toList]

/-- What stands before a syntax error can be completed to a text that is accepted. -/
theorem completable_of_parse_error {source : String} {e : SyntaxError}
    (h : Tree.parse source = .error e) : e.offset ≤ source.utf8ByteSize ∧
    ∃ before after : String, source = before ++ after ∧ e.offset = before.utf8ByteSize ∧
      ∃ completion t, Tree.parse (before ++ completion) = .ok t := by
  -- What was read, up to the place of the error, begins some texts of parts.
  suffices hplace : ∃ cs rest ds parts texts, source.toList = cs ++ rest ∧
      e.offset = byteLength cs ∧ parts ≠ [] ∧ List.Forall₂ PartText parts texts ∧
      cs ++ ds = [';'].intercalate texts by
    obtain ⟨cs, rest, ds, parts, texts, hsource, hoffset, hne, htexts, hcompleted⟩ := hplace
    have htext : source = String.ofList cs ++ String.ofList rest := by
      rw [← String.ofList_append, ← hsource, String.ofList_toList]
    have hbefore : e.offset = (String.ofList cs).utf8ByteSize := by
      rw [hoffset, ← byteLength_toList, String.toList_ofList]
    have hwhole : (String.ofList cs ++ String.ofList ds).toList = [';'].intercalate texts := by
      rw [String.toList_append, String.toList_ofList, String.toList_ofList, hcompleted]
    obtain ⟨t, hparse, -⟩ := parse_of_partTexts hne htexts hwhole
    refine ⟨?_, String.ofList cs, String.ofList rest, htext, hbefore, String.ofList ds, t, hparse⟩
    rw [hbefore, htext, String.utf8ByteSize_append]
    exact Nat.le_add_right _ _
  rw [Tree.parse] at h
  split at h
  · rename_i t next hrun
    split_ifs at h
    obtain rfl := Except.error.inj h
    obtain ⟨hne, texts, htexts, htext⟩ := exists_partTexts_of_tree hrun
    have hoffset := (passage_tree hrun).1.offset_eq htext
    refine ⟨_, next.rest, [], t.parts, texts, htext, ?_, hne, htexts, List.append_nil _⟩
    rw [Nat.zero_add] at hoffset
    show (SyntaxError.locate source next.offset _).offset = _
    rw [hoffset, offset_locate htext]
  · rename_i f hmiss
    exact absurd hmiss tree_ne_miss
  · rename_i f hfatal
    obtain rfl := Except.error.inj h
    obtain ⟨cs, ds, parts, texts, ⟨rest, hrest, hoffset⟩, hne, htexts, hcompleted⟩ :=
      completes_tree hfatal
    refine ⟨cs, rest, ds, parts, texts, hrest, ?_, hne, htexts, hcompleted⟩
    rw [Nat.zero_add] at hoffset
    show (SyntaxError.locate source f.offset _).offset = _
    rw [hoffset, offset_locate hrest]

theorem completable_unclosedGroup : ∃ e, Tree.parse "3/2*(1:1 <1 5/4" = .error e ∧
    e.offset ≤ "3/2*(1:1 <1 5/4".utf8ByteSize ∧
    ∃ before after : String, "3/2*(1:1 <1 5/4" = before ++ after ∧
      e.offset = before.utf8ByteSize ∧
      ∃ completion t, Tree.parse (before ++ completion) = .ok t := by
  have hrefused : (Tree.parse "3/2*(1:1 <1 5/4").isOk = false := by decide +kernel
  obtain ⟨e, he⟩ := exists_eq_error hrefused
  exact ⟨e, he, completable_of_parse_error he⟩

end JustIntonation.Notation
