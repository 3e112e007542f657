/-
JustIntonation/Proofs/Notation/Soundness.lean

A tree that was read says what stands in its text.

A tree written out in the grammar without white space is its `ink`, and its
`literals` are its integers in the order of reading: a volume factor stands
behind its body, a frequency factor before it.  Along the grammar every rule
that has read something is a passage with the ink and the literals of what it
read, and that is canonical.

The one point at which this takes more than the rule itself is the body of a
multiplied item, which has to be a chord or a group.  A product goes on at
every `*` with a ratio behind it, so behind the `*` at which a factor ends
stands no digit (`product_ends`), and an item that does not begin with a digit
is bracketed.

Main result: a text without its white space is the ink of the tree read from
it, every integer stands at its place, and the places are in order
(`ink_and_places_of_parse`).
-/
import JustIntonation.Proofs.Except
import JustIntonation.Proofs.Notation.Passage
import Mathlib.Data.List.TakeWhile

namespace JustIntonation.Notation

/-! ### Trees without white space -/

mutual

/-- An expression written out without white space. -/
def Expr.ink : Expr → List Char
  | .note f d v => f.chars ++ ':' :: (d.chars ++ volumeChars v)
  | .chord fs d v => '<' :: (fs.flatMap ProductLiteral.chars ++
      '>' :: ':' :: (d.chars ++ volumeChars v))
  | .group items => '(' :: (Expr.sequenceInk items ++ [')'])
  | .multiply f body => f.chars ++ '*' :: body.ink
  | .amplify body f => body.ink ++ '*' :: '*' :: f.chars

def Expr.sequenceInk : List Expr → List Char
  | [] => []
  | item :: items => item.ink ++ Expr.sequenceInk items

end

def Tree.ink (t : Tree) : List Char := [';'].intercalate (t.parts.map Expr.sequenceInk)

/-! ### Integers in the order of reading -/

def RatioLiteral.literals (r : RatioLiteral) : List Literal :=
  r.numerator :: r.denominator.toList

def ProductLiteral.literals (p : ProductLiteral) : List Literal :=
  p.ratios.flatMap RatioLiteral.literals

def volumeLiterals (v : Option ProductLiteral) : List Literal :=
  v.toList.flatMap ProductLiteral.literals

mutual

def Expr.literals : Expr → List Literal
  | .note f d v => f.literals ++ (d.literals ++ volumeLiterals v)
  | .chord fs d v => fs.flatMap ProductLiteral.literals ++ (d.literals ++ volumeLiterals v)
  | .group items => Expr.sequenceLiterals items
  | .multiply f body => f.literals ++ body.literals
  | .amplify body f => body.literals ++ f.literals

def Expr.sequenceLiterals : List Expr → List Literal
  | [] => []
  | item :: items => item.literals ++ Expr.sequenceLiterals items

end

def Tree.literals (t : Tree) : List Literal := t.parts.flatMap Expr.sequenceLiterals

theorem Expr.sequenceInk_eq_flatMap (items : List Expr) :
    Expr.sequenceInk items = items.flatMap Expr.ink := by
  induction items with
  | nil => rfl
  | cons item items ih => rw [Expr.sequenceInk, ih, List.flatMap_cons]

theorem Expr.sequenceLiterals_eq_flatMap (items : List Expr) :
    Expr.sequenceLiterals items = items.flatMap Expr.literals := by
  induction items with
  | nil => rfl
  | cons item items ih => rw [Expr.sequenceLiterals, ih, List.flatMap_cons]

/-! ### Products -/

variable {c next : Cursor}

theorem passage_integer {l : Literal} (h : Parser.integer c = .done l next) :
    Passage c l.chars [l] next ∧ l.Canonical := by
  obtain ⟨offset, rest⟩ := c
  have hrun := expecting_eq_done.mp h
  simp only [Parser.digits] at hrun
  split_ifs at hrun with hempty
  obtain ⟨rfl, rfl⟩ := Outcome.done.inj hrun
  have hne : rest.takeWhile Char.isDigit ≠ [] := by simpa using hempty
  have hdigits : ∀ d ∈ rest.takeWhile Char.isDigit, d.isDigit = true :=
    fun d hd => List.mem_takeWhile_imp hd
  have hpassage : Passage
      ⟨offset, rest.takeWhile Char.isDigit ++ rest.dropWhile Char.isDigit⟩ _ _ _ :=
    .integer hne hdigits
  rw [List.takeWhile_append_dropWhile] at hpassage
  refine ⟨?_, ?_, ?_⟩
  · rwa [Literal.chars, String.toList_ofList]
  · rwa [String.toList_ofList]
  · rwa [String.toList_ofList]

theorem passage_ratio {r : RatioLiteral} (h : Parser.ratio c = .done r next) :
    Passage c r.chars r.literals next ∧ r.Canonical := by
  simp only [Parser.ratio, bind_eq_done, optional_eq_done, pure_eq_done] at h
  obtain ⟨n, c₁, hn, o, c₂, ho, rfl, rfl⟩ := h
  obtain ⟨hnumerator, hcanonical⟩ := passage_integer hn
  obtain ⟨d, rfl, _, c₃, hslash, hd⟩ | ⟨rfl, rfl, -⟩ := ho
  · obtain ⟨hdenominator, hcanonical'⟩ := passage_integer hd
    have hboth := hnumerator.trans ((passage_char rfl hslash).trans hdenominator)
    refine ⟨hboth, hcanonical, ?_⟩
    rintro _ ⟨⟩
    exact hcanonical'
  · exact ⟨hnumerator, hcanonical, nofun⟩

/-- A factor behind the first. -/
theorem passage_factor {r : RatioLiteral}
    (h : (do Parser.char '*'; Parser.ratio : Parser RatioLiteral) c = .done r next) :
    Passage c ('*' :: r.chars) r.literals next ∧ r.Canonical := by
  obtain ⟨_, c₁, hstar, hr⟩ := bind_eq_done.mp h
  obtain ⟨hratio, hcanonical⟩ := passage_ratio hr
  exact ⟨(passage_char rfl hstar).trans hratio, hcanonical⟩

theorem passage_product {p : ProductLiteral} (h : Parser.product c = .done p next) :
    Passage c p.chars p.literals next ∧ p.Canonical := by
  simp only [Parser.product, bind_eq_done, pure_eq_done] at h
  obtain ⟨r, c₁, hr, rs, c₂, hrs, rfl, rfl⟩ := h
  obtain ⟨hfirst, hcanonical⟩ := passage_ratio hr
  obtain ⟨hothers, hcanonicals⟩ := passage_many passage_factor hrs
  refine ⟨?_, List.cons_ne_nil _ _, List.forall_mem_cons.mpr ⟨hcanonical, hcanonicals⟩⟩
  rw [ProductLiteral.chars, List.map_cons, intercalate_cons, List.flatMap_map]
  exact hfirst.trans hothers

/-! ### Where products begin and end -/

theorem exists_integer (offset : Nat) {d : Char} (rest : List Char) (hd : d.isDigit = true) :
    ∃ l next, Parser.integer ⟨offset, d :: rest⟩ = .done l next := by
  simp only [Parser.integer, expecting_eq_done, Parser.digits, List.takeWhile_cons_of_pos hd]
  exact ⟨_, _, rfl⟩

theorem integer_ne_fatal (c : Cursor) (e : Failure) : Parser.integer c ≠ .fatal e := by
  intro h
  simp only [Parser.integer, Parser.expecting, Parser.digits] at h
  split_ifs at h

theorem char_ne_fatal (x : Char) (c : Cursor) (e : Failure) : Parser.char x c ≠ .fatal e := by
  obtain ⟨offset, rest⟩ := c
  intro h
  cases rest with
  | nil => cases h
  | cons y rest =>
    simp only [Parser.char] at h
    split_ifs at h

/-- Where a digit stands, a ratio can be read: no denominator is demanded behind it. -/
theorem exists_ratio (offset : Nat) {d : Char} (rest : List Char) (hd : d.isDigit = true) :
    ∃ r next, Parser.ratio ⟨offset, d :: rest⟩ = .done r next := by
  obtain ⟨n, c₁, hn⟩ := exists_integer offset rest hd
  have hoptional : ∃ o c₂,
      Parser.optional (do Parser.char '/'; Parser.integer) c₁ = .done o c₂ := by
    rw [Parser.optional]
    cases hdenominator : (do Parser.char '/'; Parser.integer : Parser Literal) c₁ with
    | done l c₂ => exact ⟨some l, c₂, rfl⟩
    | miss e => exact ⟨none, c₁, rfl⟩
    | fatal e =>
      obtain hslash | ⟨_, c₂, -, hl⟩ := bind_eq_fatal.mp hdenominator
      · exact absurd hslash (char_ne_fatal _ _ _)
      · exact absurd hl (integer_ne_fatal _ _)
  obtain ⟨o, c₂, ho⟩ := hoptional
  exact ⟨⟨n, o⟩, c₂, bind_eq_done.mpr ⟨n, c₁, hn, bind_eq_done.mpr ⟨o, c₂, ho, rfl⟩⟩⟩

/-- A product ends at a `*` only if no digit stands behind it. -/
theorem product_ends {p : ProductLiteral} {offset : Nat} {tail : List Char}
    (h : Parser.product c = .done p ⟨offset, '*' :: tail⟩) :
    ∀ d ∈ tail.head?, d.isDigit = false := by
  simp only [Parser.product, bind_eq_done, pure_eq_done] at h
  obtain ⟨r, c₁, -, rs, c₂, hrs, -, rfl⟩ := h
  rintro d hd
  obtain ⟨rest, rfl⟩ : ∃ rest, tail = d :: rest := ⟨_, List.eq_cons_of_mem_head? hd⟩
  rw [Bool.eq_false_iff]
  intro hdigit
  obtain ⟨r', last, hr'⟩ := exists_ratio (offset + '*'.utf8Size) rest hdigit
  -- Otherwise another factor could be read here, but there are no more.
  refine many_ends ?_ hrs last (a := r')
    (bind_eq_done.mpr ⟨(), _, char_eq_done.mpr ⟨_, rfl, rfl⟩, hr'⟩)
  intro c a next hfactor
  have hshort := (passage_factor hfactor).1.length_add_le
  rw [List.length_cons] at hshort
  omega

/-- What begins with a product begins with a digit. -/
theorem exists_digit_of_product {p : ProductLiteral} (h : Parser.product c = .done p next) :
    ∃ d ∈ c.rest.head?, d.isDigit = true := by
  simp only [Parser.product, Parser.ratio, Parser.integer, bind_eq_done, expecting_eq_done] at h
  obtain ⟨-, -, ⟨n, c₁, hn, -⟩, -⟩ := h
  obtain ⟨offset, rest⟩ := c
  simp only [Parser.digits] at hn
  split_ifs at hn with hempty
  cases rest with
  | nil => exact absurd rfl hempty
  | cons d rest =>
    refine ⟨d, rfl, ?_⟩
    by_contra hd
    rw [List.takeWhile_cons_of_neg hd] at hempty
    exact hempty rfl

/-! ### Notes, chords and groups -/

theorem passage_volume {p : Parser ProductLiteral} {v : Option ProductLiteral}
    (hp : ∀ {c w next}, p c = .done w next → Parser.product c = .done w next)
    (h : Parser.optional (do Parser.char ':'; p) c = .done v next) :
    Passage c (volumeChars v) (volumeLiterals v) next ∧ ∀ w ∈ v, w.Canonical := by
  obtain ⟨w, rfl, hw⟩ | ⟨rfl, rfl, -⟩ := optional_eq_done.mp h
  · obtain ⟨_, c₁, hcolon, hw⟩ := bind_eq_done.mp hw
    obtain ⟨hvolume, hcanonical⟩ := passage_product (hp hw)
    refine ⟨?_, ?_⟩
    · simpa [volumeChars, volumeLiterals] using (passage_char rfl hcolon).trans hvolume
    · rintro _ ⟨⟩
      exact hcanonical
  · exact ⟨.refl, nofun⟩

theorem passage_note {e : Expr} (h : Parser.note c = .done e next) :
    Passage c e.ink e.literals next ∧ e.Canonical ∧ e.isMultiply = false := by
  simp only [Parser.note, bind_eq_done, commit_eq_done, expecting_eq_done, pure_eq_done] at h
  obtain ⟨f, c₁, hf, _, c₂, hcolon, d, c₃, hd, v, c₄, hv, rfl, rfl⟩ := h
  obtain ⟨hfrequency, hfcanonical⟩ := passage_product hf
  obtain ⟨hduration, hdcanonical⟩ := passage_product hd
  obtain ⟨hvolume, hvcanonical⟩ :=
    passage_volume (fun hw => expecting_eq_done.mp (commit_eq_done.mp hw)) hv
  exact ⟨hfrequency.trans ((passage_char rfl hcolon).trans (hduration.trans hvolume)),
    .note hfcanonical hdcanonical hvcanonical, rfl⟩

/-- Something with white space behind it. -/
theorem passage_spaced {α : Type} {p : Parser α} {ink : α → List Char} {ls : α → List Literal}
    {good : α → Prop}
    (hp : ∀ {c a next}, p c = .done a next → Passage c (ink a) (ls a) next ∧ good a) {a : α}
    (h : (do let a ← p; Parser.spaces; return a : Parser α) c = .done a next) :
    Passage c (ink a) (ls a) next ∧ good a := by
  simp only [bind_eq_done, pure_eq_done] at h
  obtain ⟨a', c₁, ha, _, c₂, hspaces, rfl, rfl⟩ := h
  obtain ⟨hpassage, hgood⟩ := hp ha
  have hboth := hpassage.trans (passage_spaces hspaces)
  rw [List.append_nil, List.append_nil] at hboth
  exact ⟨hboth, hgood⟩

theorem passage_chord {e : Expr} (h : Parser.chord c = .done e next) :
    Passage c e.ink e.literals next ∧ e.Canonical ∧ e.isMultiply = false ∧
      e.isBracketed = true := by
  simp only [Parser.chord, Parser.required, bind_eq_done, commit_eq_done, expecting_eq_done,
    pure_eq_done] at h
  obtain ⟨_, c₁, hopen, _, c₂, hspaces, fs, c₃, hfs, _, c₄, hclose, _, c₅, hcolon, d, c₆, hd, v, c₇,
    hv, rfl, rfl⟩ := h
  obtain ⟨hfrequencies, hfcanonical⟩ := passage_many (passage_spaced passage_product) hfs
  obtain ⟨hduration, hdcanonical⟩ := passage_product hd
  obtain ⟨hvolume, hvcanonical⟩ := passage_volume expecting_eq_done.mp hv
  have hhead := (passage_char rfl hopen).trans ((passage_spaces hspaces).trans hfrequencies)
  have hlast := (passage_char rfl hclose).trans
    ((passage_char rfl hcolon).trans (hduration.trans hvolume))
  refine ⟨?_, .chord hfcanonical hdcanonical hvcanonical, rfl, rfl⟩
  simpa [Expr.ink, Expr.literals] using hhead.trans hlast

/-- Items that are read one behind the other are passages of that kind too. -/
theorem passage_sequence {item : Parser Expr}
    (hitem : ∀ {c e next}, item c = .done e next → Passage c e.ink e.literals next ∧ e.Canonical)
    {es : List Expr} (h : Parser.sequence item c = .done es next) :
    Passage c (Expr.sequenceInk es) (Expr.sequenceLiterals es) next ∧ ∀ e ∈ es, e.Canonical := by
  simp only [Parser.sequence, bind_eq_done] at h
  obtain ⟨_, c₁, hspaces, hes⟩ := h
  obtain ⟨hitems, hcanonical⟩ := passage_many (passage_spaced hitem) hes
  rw [Expr.sequenceInk_eq_flatMap, Expr.sequenceLiterals_eq_flatMap]
  exact ⟨(passage_spaces hspaces).trans hitems, hcanonical⟩

theorem passage_group {item : Parser Expr}
    (hitem : ∀ {c e next}, item c = .done e next → Passage c e.ink e.literals next ∧ e.Canonical)
    {e : Expr} (h : Parser.group item c = .done e next) :
    Passage c e.ink e.literals next ∧ e.Canonical ∧ e.isMultiply = false ∧
      e.isBracketed = true := by
  simp only [Parser.group, Parser.required, bind_eq_done, commit_eq_done, expecting_eq_done,
    pure_eq_done] at h
  obtain ⟨_, c₁, hopen, es, c₂, hes, _, c₃, hclose, rfl, rfl⟩ := h
  obtain ⟨hitems, hcanonical⟩ := passage_sequence hitem hes
  refine ⟨?_, .group hcanonical, rfl, rfl⟩
  simpa [Expr.ink, Expr.literals] using
    (passage_char rfl hopen).trans (hitems.trans (passage_char rfl hclose))

/-! ### Items -/

/-- What is known of an item that was read: without a digit at its beginning it is a chord or a
group. -/
structure ItemRead (c : Cursor) (e : Expr) (next : Cursor) : Prop where
  passage : Passage c e.ink e.literals next
  canonical : e.Canonical
  bracketed : (∀ d ∈ c.rest.head?, d.isDigit = false) → e.isBracketed = true

theorem itemRead_atom {item : Parser Expr}
    (hitem : ∀ {c e next}, item c = .done e next → ItemRead c e next) {e : Expr}
    (h : Parser.atom item c = .done e next) : ItemRead c e next ∧ e.isMultiply = false := by
  simp only [Parser.atom, orElse_eq_done] at h
  rcases h with hnote | ⟨-, hchord | ⟨-, hgroup⟩⟩
  · obtain ⟨hpassage, hcanonical, hsingle⟩ := passage_note hnote
    refine ⟨⟨hpassage, hcanonical, fun hdigit => ?_⟩, hsingle⟩
    simp only [Parser.note, bind_eq_done] at hnote
    obtain ⟨f, c₁, hf, -⟩ := hnote
    obtain ⟨d, hd, hd'⟩ := exists_digit_of_product hf
    rw [hdigit d hd] at hd'
    cases hd'
  · obtain ⟨hpassage, hcanonical, hsingle, hbracketed⟩ := passage_chord hchord
    exact ⟨⟨hpassage, hcanonical, fun _ => hbracketed⟩, hsingle⟩
  · obtain ⟨hpassage, hcanonical, hsingle, hbracketed⟩ :=
      passage_group (fun he => ⟨(hitem he).passage, (hitem he).canonical⟩) hgroup
    exact ⟨⟨hpassage, hcanonical, fun _ => hbracketed⟩, hsingle⟩

theorem passage_volumeFactor {f : ProductLiteral}
    (h : (do
      Parser.char '*'
      Parser.char '*'
      Parser.commit (Parser.expecting .volumeRatio Parser.product) : Parser ProductLiteral) c
        = .done f next) :
    Passage c ('*' :: '*' :: f.chars) f.literals next ∧ f.Canonical := by
  simp only [bind_eq_done, commit_eq_done, expecting_eq_done] at h
  obtain ⟨_, c₁, hstar, _, c₂, hstar', hf⟩ := h
  obtain ⟨hfactor, hcanonical⟩ := passage_product hf
  exact ⟨(passage_char rfl hstar).trans ((passage_char rfl hstar').trans hfactor), hcanonical⟩

/-! ### Volume factors -/

theorem ink_foldl_amplify (fs : List ProductLiteral) (e : Expr) :
    (fs.foldl .amplify e).ink = e.ink ++ fs.flatMap fun f => '*' :: '*' :: f.chars := by
  induction fs generalizing e with
  | nil => simp
  | cons f fs ih =>
    rw [List.foldl_cons, ih, Expr.ink, List.flatMap_cons, List.append_assoc]

theorem literals_foldl_amplify (fs : List ProductLiteral) (e : Expr) :
    (fs.foldl .amplify e).literals = e.literals ++ fs.flatMap ProductLiteral.literals := by
  induction fs generalizing e with
  | nil => simp
  | cons f fs ih =>
    rw [List.foldl_cons, ih, Expr.literals, List.flatMap_cons, List.append_assoc]

theorem isBracketed_foldl_amplify (fs : List ProductLiteral) (e : Expr) :
    (fs.foldl .amplify e).isBracketed = e.isBracketed := by
  induction fs generalizing e with
  | nil => rfl
  | cons f fs ih =>
    rw [List.foldl_cons, ih]
    rfl

theorem Expr.Canonical.foldl_amplify {fs : List ProductLiteral} (hfs : ∀ f ∈ fs, f.Canonical)
    {e : Expr} (he : e.Canonical) (hsingle : e.isMultiply = false) :
    (fs.foldl .amplify e).Canonical := by
  induction fs generalizing e with
  | nil => exact he
  | cons f fs ih =>
    obtain ⟨hf, hfs⟩ := List.forall_mem_cons.mp hfs
    exact ih hfs (.amplify hsingle he hf) rfl

/-! ### All items -/

theorem itemRead_amplified {item : Parser Expr}
    (hitem : ∀ {c e next}, item c = .done e next → ItemRead c e next) {e : Expr}
    (h : Parser.amplified item c = .done e next) : ItemRead c e next := by
  simp only [Parser.amplified, bind_eq_done, pure_eq_done] at h
  obtain ⟨body, c₁, hbody, fs, c₂, hfs, rfl, rfl⟩ := h
  obtain ⟨hread, hsingle⟩ := itemRead_atom hitem hbody
  obtain ⟨hfactors, hcanonical⟩ := passage_many passage_volumeFactor hfs
  refine ⟨?_, hread.canonical.foldl_amplify hcanonical hsingle, ?_⟩
  · rw [ink_foldl_amplify, literals_foldl_amplify]
    exact hread.passage.trans hfactors
  · rw [isBracketed_foldl_amplify]
    exact hread.bracketed

theorem itemRead_multiplied {item : Parser Expr}
    (hitem : ∀ {c e next}, item c = .done e next → ItemRead c e next) {e : Expr}
    (h : Parser.multiplied item c = .done e next) : ItemRead c e next := by
  simp only [Parser.multiplied, bind_eq_done, commit_eq_done, expecting_eq_done, pure_eq_done] at h
  obtain ⟨f, c₁, hf, _, c₂, hstar, body, c₃, hbody, rfl, rfl⟩ := h
  obtain ⟨hfactor, hcanonical⟩ := passage_product hf
  have hread := hitem hbody
  -- The factor ended at the `*`, so the body does not begin with a digit.
  have hbracketed : body.isBracketed = true := by
    obtain ⟨tail, hrest, rfl⟩ := char_eq_done.mp hstar
    obtain ⟨offset, rest⟩ := c₁
    subst hrest
    exact hread.bracketed (product_ends hf)
  refine ⟨hfactor.trans ((passage_char rfl hstar).trans hread.passage),
    .multiply hcanonical hbracketed hread.canonical, ?_⟩
  intro hdigit
  obtain ⟨d, hd, hd'⟩ := exists_digit_of_product hf
  rw [hdigit d hd] at hd'
  cases hd'

theorem itemRead_item (depth : Nat) :
    ∀ {c e next}, Parser.item depth c = .done e next → ItemRead c e next := by
  induction depth with
  | zero => exact nofun
  | succ depth ih =>
    intro c e next h
    rcases orElse_eq_done.mp h with hmultiplied | ⟨-, hamplified⟩
    · exact itemRead_multiplied ih hmultiplied
    · exact itemRead_amplified ih hamplified

/-! ### Whole texts -/

theorem passage_part {depth : Nat} {es : List Expr}
    (h : Parser.sequence (Parser.item depth) c = .done es next) :
    Passage c (Expr.sequenceInk es) (Expr.sequenceLiterals es) next ∧ ∀ e ∈ es, e.Canonical :=
  passage_sequence
    (fun he => ⟨(itemRead_item depth he).passage, (itemRead_item depth he).canonical⟩) h

theorem passage_tree {depth : Nat} {t : Tree} (h : Parser.tree depth c = .done t next) :
    Passage c t.ink t.literals next ∧ t.Canonical := by
  simp only [Parser.tree, bind_eq_done, pure_eq_done] at h
  obtain ⟨part, c₁, hpart, parts, c₂, hparts, rfl, rfl⟩ := h
  obtain ⟨hfirst, hcanonical⟩ := passage_part hpart
  have hbehind : ∀ {c es next}, (do Parser.char ';'; Parser.sequence (Parser.item depth) :
      Parser (List Expr)) c = .done es next → Passage c (';' :: Expr.sequenceInk es)
        (Expr.sequenceLiterals es) next ∧ ∀ e ∈ es, e.Canonical := by
    intro c es next h
    obtain ⟨_, c₃, hsemicolon, hes⟩ := bind_eq_done.mp h
    obtain ⟨hitems, hcanonical⟩ := passage_part hes
    exact ⟨(passage_char rfl hsemicolon).trans hitems, hcanonical⟩
  obtain ⟨hothers, hcanonicals⟩ := passage_many hbehind hparts
  refine ⟨?_, List.cons_ne_nil _ _, List.forall_mem_cons.mpr ⟨hcanonical, hcanonicals⟩⟩
  rw [Tree.ink, List.map_cons, intercalate_cons, List.flatMap_map]
  exact hfirst.trans hothers

theorem canonical_of_parse {source : String} {t : Tree} (h : Tree.parse source = .ok t) :
    t.Canonical := by
  rw [Tree.parse] at h
  split at h
  · rename_i t' next hrun
    split_ifs at h
    obtain rfl := Except.ok.inj h
    exact (passage_tree hrun).2
  · cases h
  · cases h

/-- A tree that was read is canonical and says what stands in its text: without white space the
text is the ink of the tree, every integer stands at its place, and the places are not empty and
follow one another in the order of reading. -/
theorem ink_and_places_of_parse {source : String} {t : Tree} (h : Tree.parse source = .ok t) :
    t.Canonical ∧ source.toList.filter (· ∉ [' ', '\t', '\r', '\n']) = t.ink ∧
    (∀ l ∈ t.literals, l.StandsIn 0 source.toList ∧ l.start < l.stop) ∧
    t.literals.Pairwise fun l l' => l.stop ≤ l'.start := by
  rw [Tree.parse] at h
  split at h
  · rename_i t' next hrun
    split_ifs at h with hend
    obtain rfl := Except.ok.inj h
    obtain ⟨hpassage, hcanonical⟩ := passage_tree hrun
    refine ⟨hcanonical, ?_, ?_, hpassage.disjoint⟩
    · -- Nothing was left, so what was taken off is the whole text.
      obtain ⟨cs, hcs, -, hink⟩ := hpassage.exists_text
      rw [List.isEmpty_iff.mp hend, List.append_nil] at hcs
      rw [← hink, ← hcs]
      apply List.filter_congr
      intro x _
      simp [Parser.isSpace, Bool.and_assoc]
    · exact fun l hl => ⟨hpassage.standsIn l hl, (hpassage.between l hl).2.1⟩
  · cases h
  · cases h

theorem ink_and_places_scaledChord : ∃ t, Tree.parse "4*< 1 5/4>:2**3\n(3/2:1 );" = .ok t ∧
    t.Canonical ∧ t.ink = "4*<15/4>:2**3(3/2:1);".toList ∧
    (∀ l ∈ t.literals, l.StandsIn 0 "4*< 1 5/4>:2**3\n(3/2:1 );".toList ∧ l.start < l.stop) ∧
    t.literals.Pairwise fun l l' => l.stop ≤ l'.start := by
  have hok : (Tree.parse "4*< 1 5/4>:2**3\n(3/2:1 );").isOk = true := by decide +kernel
  obtain ⟨t, ht⟩ := exists_eq_ok hok
  obtain ⟨hcanonical, hink, hplaces, hdisjoint⟩ := ink_and_places_of_parse ht
  have hfilter : "4*< 1 5/4>:2**3\n(3/2:1 );".toList.filter (· ∉ [' ', '\t', '\r', '\n'])
      = "4*<15/4>:2**3(3/2:1);".toList := by decide +kernel
  exact ⟨t, ht, hcanonical, hink.symm.trans hfilter, hplaces, hdisjoint⟩

end JustIntonation.Notation
