/-
JustIntonation/Proofs/Notation/Evaluation.lean

Which trees are music.

A literal is refused if an integer in it is too large or a denominator of it
is zero, and nothing else in a tree is: the operators put factors in front of
quantities as they are written, which always succeeds.  So the evaluation of a
tree stops at the first literal that is refused, in an order of its own
(`Expr.evaluated`), and has a value if there is none (`stopsAt_piece`).

A tree therefore denotes a piece exactly if each of its products can be
evaluated, and the piece is then its meaning (`piece_eq_ok`).  This does not
ask where the integers stand, so trees that are the same up to places are the
same music, whatever the texts that they were read from
(`piece_eq_ok_of_bare`).
-/
import JustIntonation.Proofs.Notation.Descent
import JustIntonation.Proofs.Notation.Layout

namespace JustIntonation.Notation

variable {source source' : String}

/-! ### Literals -/

/-- The integers are small enough, and the denominator is not zero. -/
def RatioLiteral.Evaluable (r : RatioLiteral) : Prop :=
  r.numerator.number ≤ largestInteger ∧
    ∀ d ∈ r.denominator, d.number ≤ largestInteger ∧ d.number ≠ 0

def ProductLiteral.Evaluable (p : ProductLiteral) : Prop := ∀ r ∈ p.ratios, r.Evaluable

instance (r : RatioLiteral) : Decidable r.Evaluable := inferInstanceAs (Decidable (_ ∧ _))

instance (p : ProductLiteral) : Decidable p.Evaluable :=
  inferInstanceAs (Decidable (∀ r ∈ p.ratios, r.Evaluable))

/-! ### Refused literals -/

/-- A literal that is refused, and what is said of it. -/
structure Refusal where
  literal : Literal
  message : String
deriving DecidableEq

def Literal.refusals (l : Literal) : List Refusal :=
  if l.number ≤ largestInteger then [] else [⟨l, "integer is too large"⟩]

/-- A denominator may not be zero either. -/
def Literal.denominatorRefusals (d : Literal) : List Refusal :=
  d.refusals ++ if d.number = 0 then [⟨d, "denominator must not be zero"⟩] else []

/-- The refused literals of a ratio in the order of evaluation. -/
def RatioLiteral.refusals (r : RatioLiteral) : List Refusal :=
  r.numerator.refusals ++ r.denominator.toList.flatMap Literal.denominatorRefusals

def ProductLiteral.refusals (p : ProductLiteral) : List Refusal :=
  p.ratios.flatMap RatioLiteral.refusals

theorem Literal.refusals_eq_nil {l : Literal} :
    l.refusals = [] ↔ l.number ≤ largestInteger := by
  rw [refusals]
  split_ifs with hfits
  · simp [hfits]
  · simp [hfits]

theorem Literal.denominatorRefusals_eq_nil {d : Literal} :
    d.denominatorRefusals = [] ↔ d.number ≤ largestInteger ∧ d.number ≠ 0 := by
  rw [denominatorRefusals, List.append_eq_nil_iff, refusals_eq_nil]
  split_ifs with hzero
  · simp [hzero]
  · simp [hzero]

theorem RatioLiteral.refusals_eq_nil {r : RatioLiteral} : r.refusals = [] ↔ r.Evaluable := by
  rw [refusals, List.append_eq_nil_iff, Literal.refusals_eq_nil, List.flatMap_eq_nil_iff]
  simp only [Literal.denominatorRefusals_eq_nil, Option.mem_toList]
  rfl

theorem ProductLiteral.refusals_eq_nil {p : ProductLiteral} : p.refusals = [] ↔ p.Evaluable := by
  rw [refusals, List.flatMap_eq_nil_iff]
  exact forall₂_congr fun r _ => RatioLiteral.refusals_eq_nil

/-- A computation that stops at the first of some refused literals, and has a value if there is
none. -/
inductive StopsAt (source : String) {α : Type} : List Refusal → Except Fault α → Prop
  | nowhere (a : α) : StopsAt source [] (.ok a)
  | first (r : Refusal) (rs : List Refusal) :
      StopsAt source (r :: rs) (.error (r.literal.fault source r.message))

namespace StopsAt

variable {α β : Type} {rs rs' : List Refusal} {x : Except Fault α}

theorem exists_ok_iff (h : StopsAt source rs x) : (∃ a, x = .ok a) ↔ rs = [] := by
  cases h with
  | nowhere a => exact ⟨fun _ => rfl, fun _ => ⟨a, rfl⟩⟩
  | first r rs => exact ⟨nofun, nofun⟩

/-- The failure is located at the first of the refused literals. -/
theorem eq_error_iff (h : StopsAt source rs x) {f : Fault} : x = .error f ↔
    ∃ r, rs.head? = some r ∧ r.literal.fault source r.message = f := by
  cases h with
  | nowhere a => exact ⟨nofun, nofun⟩
  | first r rs => simp

theorem of_exists (h : ∃ a, x = .ok a) : StopsAt source [] x := by
  obtain ⟨a, rfl⟩ := h
  exact .nowhere a

/-- What stops in the first part of a computation does not get to the second. -/
theorem bind {f : α → Except Fault β} (hx : StopsAt source rs x)
    (hf : ∀ a, x = .ok a → StopsAt source rs' (f a)) : StopsAt source (rs ++ rs') (x >>= f) := by
  cases hx with
  | nowhere a => exact hf a rfl
  | first r rs => exact .first r _

theorem bind_pure {f : α → β} (hx : StopsAt source rs x) :
    StopsAt source rs (x >>= fun a => pure (f a)) := by
  have hboth := hx.bind (f := fun a => pure (f a)) fun a _ => .nowhere (f a)
  rwa [List.append_nil] at hboth

theorem mapM {f : α → Except Fault β} {refusals : α → List Refusal} {xs : List α}
    (h : ∀ x ∈ xs, StopsAt source (refusals x) (f x)) :
    StopsAt source (xs.flatMap refusals) (xs.mapM f) := by
  induction xs with
  | nil => exact .nowhere []
  | cons x xs ih =>
    obtain ⟨hx, hxs⟩ := List.forall_mem_cons.mp h
    rw [List.flatMap_cons, List.mapM_cons]
    exact hx.bind fun y _ => (ih hxs).bind_pure

end StopsAt

theorem stopsAt_literal (l : Literal) : StopsAt source l.refusals (l.value source) := by
  rw [Literal.refusals, Literal.value]
  split_ifs
  · exact .nowhere _
  · exact .first _ _

theorem stopsAt_ratio (r : RatioLiteral) : StopsAt source r.refusals (r.value source) := by
  refine (stopsAt_literal r.numerator).bind fun n _ => ?_
  cases r.denominator with
  | none => exact .nowhere _
  | some d =>
    rw [Option.toList_some, List.flatMap_singleton]
    refine (stopsAt_literal d).bind fun k hk => ?_
    obtain rfl := number_of_value hk
    simp only [Int.natCast_eq_zero]
    split_ifs
    · exact .first _ _
    · exact .nowhere _

theorem stopsAt_product (p : ProductLiteral) : StopsAt source p.refusals (p.value source) :=
  (StopsAt.mapM fun r _ => stopsAt_ratio r).bind_pure

theorem stopsAt_volume (v : Option ProductLiteral) :
    StopsAt source (v.toList.flatMap ProductLiteral.refusals) (volumeOf source v) := by
  cases v with
  | none => exact .nowhere _
  | some p =>
    rw [Option.toList_some, List.flatMap_singleton]
    exact (stopsAt_product p).bind_pure

/-! ### Trees -/

mutual

/-- The products of an expression in the order of reading. -/
def Expr.products : Expr → List ProductLiteral
  | .note f d v => f :: d :: v.toList
  | .chord fs d v => fs ++ d :: v.toList
  | .group items => Expr.sequenceProducts items
  | .multiply f body => f :: body.products
  | .amplify body f => body.products ++ [f]

def Expr.sequenceProducts : List Expr → List ProductLiteral
  | [] => []
  | item :: items => item.products ++ Expr.sequenceProducts items

end

def Tree.products (t : Tree) : List ProductLiteral := t.parts.flatMap Expr.sequenceProducts

/-- Every integer is small enough, and no denominator is zero. -/
def Tree.Evaluable (t : Tree) : Prop := ∀ p ∈ t.products, p.Evaluable

mutual

/-- The products of an expression in the order of evaluation: what the members of a chord share
comes before its frequencies, and a factor before what it is applied to. -/
def Expr.evaluated : Expr → List ProductLiteral
  | .note f d v => f :: d :: v.toList
  | .chord fs d v => d :: v.toList ++ fs
  | .group items => Expr.sequenceEvaluated items
  | .multiply f body => f :: body.evaluated
  | .amplify body f => f :: body.evaluated

def Expr.sequenceEvaluated : List Expr → List ProductLiteral
  | [] => []
  | item :: items => item.evaluated ++ Expr.sequenceEvaluated items

end

def Tree.evaluated (t : Tree) : List ProductLiteral := t.parts.flatMap Expr.sequenceEvaluated

/-- The refused literals of a tree in the order of evaluation. -/
def Tree.refusals (t : Tree) : List Refusal := t.evaluated.flatMap ProductLiteral.refusals

theorem Expr.sequenceProducts_eq_flatMap (items : List Expr) :
    Expr.sequenceProducts items = items.flatMap Expr.products := by
  induction items with
  | nil => rfl
  | cons item items ih => rw [Expr.sequenceProducts, ih, List.flatMap_cons]

theorem Expr.sequenceSites_append (items others : List Expr) :
    Expr.sequenceSites [] [] (items ++ others)
      = Expr.sequenceSites [] [] items ++ Expr.sequenceSites [] [] others := by
  induction items with
  | nil => rfl
  | cons item items ih =>
    rw [List.cons_append, Expr.sequenceSites, Expr.sequenceSites, ih, List.append_assoc]

/-- The same products are read and evaluated. -/
theorem evaluated_perm : (∀ e : Expr, e.evaluated.Perm e.products) ∧
    ∀ items : List Expr, (Expr.sequenceEvaluated items).Perm (Expr.sequenceProducts items) := by
  apply Expr.products.mutual_induct
  case case1 => exact fun f d v => .refl _
  case case2 => exact fun fs d v => List.perm_append_comm
  case case3 =>
    intro items ih
    rw [Expr.evaluated, Expr.products]
    exact ih
  case case4 =>
    intro f body ih
    rw [Expr.evaluated, Expr.products]
    exact ih.cons f
  case case5 =>
    intro body f ih
    rw [Expr.evaluated, Expr.products]
    exact (ih.cons f).trans (List.perm_append_singleton f body.products).symm
  case case6 => exact .refl _
  case case7 =>
    intro item items ihItem ihItems
    rw [Expr.sequenceEvaluated, Expr.sequenceProducts]
    exact ihItem.append ihItems

theorem Tree.mem_evaluated {t : Tree} {p : ProductLiteral} : p ∈ t.evaluated ↔ p ∈ t.products := by
  rw [evaluated, products, List.mem_flatMap, List.mem_flatMap]
  exact exists_congr fun items => and_congr_right fun _ => (evaluated_perm.2 items).mem_iff

theorem Tree.refusals_eq_nil {t : Tree} : t.refusals = [] ↔ t.Evaluable := by
  rw [refusals, List.flatMap_eq_nil_iff]
  simp only [mem_evaluated, ProductLiteral.refusals_eq_nil]
  rfl

/-- An operator is refused where its factor or the expression in it is, and nowhere else. -/
theorem stopsAt_operator {f : ProductLiteral} {body : Expr} {scales gains : List ProductLiteral}
    {operator : Product → Note → Except Fault Note} {rs : List Refusal}
    (h : ∀ (s : Site) own,
      operator ⟨f.factors⟩ (s.note own) = .ok ((s.within scales gains).note own))
    (hbody : StopsAt source rs (body.events source)) :
    StopsAt source (f.refusals ++ rs) (do
      let factors ← f.value source
      let events ← body.events source
      events.mapM (Event.mapNotes (operator factors))) := by
  refine (stopsAt_product f).bind fun f' hf => ?_
  have hall : ∀ events, body.events source = .ok events →
      StopsAt source [] (events.mapM (Event.mapNotes (operator f'))) := by
    intro events hevents
    obtain rfl := factors_of_value hf
    obtain rfl := (events_eq_map_event source).1 body events hevents
    -- At a site no operator is refused.
    apply StopsAt.of_exists
    apply exists_mapM_eq_ok
    exact List.forall_mem_map.mpr fun s _ => ⟨_, Site.mapNotes_event (h s)⟩
  have hboth := hbody.bind hall
  rwa [List.append_nil] at hboth

theorem stopsAt_note (f d : ProductLiteral) (v : Option ProductLiteral) :
    StopsAt source ((Expr.note f d v).evaluated.flatMap ProductLiteral.refusals)
      (Expr.events source (.note f d v)) := by
  rw [Expr.evaluated, List.flatMap_cons, List.flatMap_cons, Expr.events]
  exact (stopsAt_product f).bind fun _ _ =>
    (stopsAt_product d).bind fun _ _ => (stopsAt_volume v).bind_pure

theorem stopsAt_chord (fs : List ProductLiteral) (d : ProductLiteral)
    (v : Option ProductLiteral) :
    StopsAt source ((Expr.chord fs d v).evaluated.flatMap ProductLiteral.refusals)
      (Expr.events source (.chord fs d v)) := by
  rw [Expr.evaluated, List.cons_append, List.flatMap_cons, List.flatMap_append, Expr.events]
  refine (stopsAt_product d).bind fun _ _ => (stopsAt_volume v).bind fun _ _ => ?_
  exact (StopsAt.mapM fun f _ => (stopsAt_product f).bind_pure).bind_pure

/-- The evaluation of expressions, one by one and in sequence, stops at the first literal that is
refused. -/
theorem stopsAt_events (source : String) :
    (∀ e : Expr,
      StopsAt source (e.evaluated.flatMap ProductLiteral.refusals) (e.events source)) ∧
    ∀ items : List Expr, StopsAt source
      ((Expr.sequenceEvaluated items).flatMap ProductLiteral.refusals)
      (Expr.sequenceEvents source items) := by
  apply Expr.events.mutual_induct
  case case1 => exact stopsAt_note
  case case2 => exact stopsAt_chord
  case case3 =>
    intro items ih
    rw [Expr.events, Expr.evaluated]
    exact ih
  case case4 =>
    intro f body ih
    rw [Expr.evaluated, List.flatMap_cons, Expr.events]
    exact stopsAt_operator (scaleFrequency_note f) ih
  case case5 =>
    intro body f ih
    rw [Expr.evaluated, List.flatMap_cons, Expr.events]
    exact stopsAt_operator (scaleVolume_note f) ih
  case case6 => exact .nowhere []
  case case7 =>
    intro item items ihItem ihItems
    rw [Expr.sequenceEvaluated, List.flatMap_append, Expr.sequenceEvents]
    exact ihItem.bind fun _ _ => ihItems.bind_pure

theorem stopsAt_piece (source : String) (t : Tree) :
    StopsAt source t.refusals (t.piece source) := by
  rw [Tree.refusals, Tree.evaluated, List.flatMap_assoc, Tree.piece]
  exact (StopsAt.mapM fun items _ => ((stopsAt_events source).2 items).bind_pure).bind_pure

/-- A tree denotes a piece exactly if its products can be evaluated, and then it is its
meaning. -/
theorem piece_eq_ok {tree : Tree} {piece : Piece} :
    tree.piece source = .ok piece ↔ tree.Evaluable ∧ piece = tree.meaning := by
  have hexists : (∃ piece, tree.piece source = .ok piece) ↔ tree.Evaluable :=
    (stopsAt_piece source tree).exists_ok_iff.trans Tree.refusals_eq_nil
  constructor
  · exact fun h => ⟨hexists.mp ⟨piece, h⟩, piece_eq_meaning h⟩
  · rintro ⟨hevaluable, rfl⟩
    obtain ⟨piece, hpiece⟩ := hexists.mpr hevaluable
    rwa [piece_eq_meaning hpiece] at hpiece

/-! ### Without places -/

theorem RatioLiteral.reduced_bare (r : RatioLiteral) : r.bare.reduced = r.reduced := by
  obtain ⟨numerator, denominator⟩ := r
  cases denominator <;> rfl

theorem RatioLiteral.evaluable_bare (r : RatioLiteral) : r.bare.Evaluable ↔ r.Evaluable := by
  obtain ⟨numerator, denominator⟩ := r
  cases denominator with
  | none => rfl
  | some d => simp [Evaluable, bare, Literal.bare, Literal.number]

theorem ProductLiteral.factors_bare (p : ProductLiteral) : p.bare.factors = p.factors := by
  rw [factors, factors, bare, List.map_map]
  exact List.map_congr_left fun r _ => r.reduced_bare

theorem ProductLiteral.evaluable_bare (p : ProductLiteral) : p.bare.Evaluable ↔ p.Evaluable := by
  simp only [Evaluable, bare, List.forall_mem_map, RatioLiteral.evaluable_bare]

theorem products_bare :
    (∀ e : Expr, e.bare.products = e.products.map ProductLiteral.bare) ∧
    ∀ items : List Expr, Expr.sequenceProducts (Expr.bareItems items)
      = (Expr.sequenceProducts items).map ProductLiteral.bare := by
  apply Expr.products.mutual_induct
  case case1 =>
    intro f d v
    cases v <;> rfl
  case case2 =>
    intro fs d v
    cases v <;> simp [Expr.products, Expr.bare]
  case case3 =>
    intro items ih
    rw [Expr.bare, Expr.products, Expr.products, ih]
  case case4 =>
    intro f body ih
    rw [Expr.bare, Expr.products, Expr.products, ih, List.map_cons]
  case case5 =>
    intro body f ih
    rw [Expr.bare, Expr.products, Expr.products, ih, List.map_append, List.map_singleton]
  case case6 => rfl
  case case7 =>
    intro item items ihItem ihItems
    rw [Expr.bareItems, Expr.sequenceProducts, Expr.sequenceProducts, ihItem, ihItems,
      List.map_append]

theorem Tree.evaluable_bare (t : Tree) : t.bare.Evaluable ↔ t.Evaluable := by
  have hproducts : t.bare.products = t.products.map ProductLiteral.bare := by
    rw [Tree.products, Tree.products, Tree.bare, List.flatMap_map, List.map_flatMap]
    exact congrArg (t.parts.flatMap ·) (funext products_bare.2)
  rw [Tree.Evaluable, Tree.Evaluable, hproducts, List.forall_mem_map]
  exact forall₂_congr fun p _ => p.evaluable_bare

def Atom.bare : Atom → Atom
  | .note frequency => .note frequency.bare
  | .chord frequencies => .chord (frequencies.map ProductLiteral.bare)

def Site.bare (s : Site) : Site :=
  ⟨s.scales.map ProductLiteral.bare, s.gains.map ProductLiteral.bare, s.atom.bare,
    s.duration.bare, s.volume.map ProductLiteral.bare⟩

theorem flatMap_factors_bare (ps : List ProductLiteral) :
    (ps.map ProductLiteral.bare).flatMap ProductLiteral.factors
      = ps.flatMap ProductLiteral.factors := by
  rw [List.flatMap_map]
  exact congrArg (ps.flatMap ·) (funext ProductLiteral.factors_bare)

theorem Site.note_bare (s : Site) (own : ProductLiteral) :
    s.bare.note own.bare = s.note own := by
  have hfrequency : s.bare.frequency own.bare = s.frequency own := by
    simp only [Site.frequency, Site.bare, List.flatMap_append, flatMap_factors_bare,
      List.flatMap_singleton, ProductLiteral.factors_bare]
  have hloudness : s.bare.loudness = s.loudness := by
    rw [Site.loudness, Site.loudness, Site.bare, flatMap_factors_bare, List.isEmpty_map]
    cases s.volume with
    | none => rfl
    | some v => simp [ProductLiteral.factors_bare]
  have hduration : s.bare.duration.factors = s.duration.factors := s.duration.factors_bare
  rw [Site.note, Site.note, hfrequency, hduration, hloudness]

theorem Site.event_bare (s : Site) : s.bare.event = s.event := by
  have hatom : s.bare.atom = s.atom.bare := rfl
  rw [Site.event, Site.event, hatom]
  cases s.atom with
  | note own => exact congrArg Event.note (s.note_bare own)
  | chord owns =>
    show Event.chord ((owns.map ProductLiteral.bare).map s.bare.note) = _
    rw [List.map_map]
    exact congrArg Event.chord (List.map_congr_left fun own _ => s.note_bare own)

theorem sites_bare :
    (∀ scales gains (e : Expr),
      e.bare.sites (scales.map ProductLiteral.bare) (gains.map ProductLiteral.bare)
        = (e.sites scales gains).map Site.bare) ∧
    ∀ scales gains (items : List Expr),
      Expr.sequenceSites (scales.map ProductLiteral.bare) (gains.map ProductLiteral.bare)
        (Expr.bareItems items) = (Expr.sequenceSites scales gains items).map Site.bare := by
  apply Expr.sites.mutual_induct
  case case1 | case2 =>
    intros
    rfl
  case case3 =>
    intro scales gains items ih
    rw [Expr.bare, Expr.sites, Expr.sites, ih]
  case case4 =>
    intro scales gains f body ih
    rw [List.map_append, List.map_singleton] at ih
    rw [Expr.bare, Expr.sites, Expr.sites, ih]
  case case5 =>
    intro scales gains body f ih
    rw [List.map_append, List.map_singleton] at ih
    rw [Expr.bare, Expr.sites, Expr.sites, ih]
  case case6 =>
    intros
    rfl
  case case7 =>
    intro scales gains item items ihItem ihItems
    rw [Expr.bareItems, Expr.sequenceSites, Expr.sequenceSites, ihItem, ihItems, List.map_append]

theorem Tree.meaning_bare (t : Tree) : t.bare.meaning = t.meaning := by
  rw [Tree.meaning, Tree.meaning, Tree.bare, List.map_map, Piece.mk.injEq]
  refine List.map_congr_left fun items _ => congrArg Part.mk ?_
  have hsites : Expr.sequenceSites [] [] (Expr.bareItems items)
      = (Expr.sequenceSites [] [] items).map Site.bare := sites_bare.2 [] [] items
  rw [hsites, List.map_map]
  exact List.map_congr_left fun s _ => s.event_bare

/-- Where the integers of a tree stand, and in which text, does not matter to its music. -/
theorem piece_eq_ok_of_bare {t t' : Tree} (hbare : t'.bare = t.bare) {piece : Piece}
    (h : t.piece source = .ok piece) : t'.piece source' = .ok piece := by
  obtain ⟨hevaluable, hmeaning⟩ := piece_eq_ok.mp h
  refine piece_eq_ok.mpr ⟨?_, ?_⟩
  · rwa [← t'.evaluable_bare, hbare, t.evaluable_bare]
  · rwa [← t'.meaning_bare, hbare, t.meaning_bare]

end JustIntonation.Notation
