/-
JustIntonation/Proofs/Notation/Descent.lean

What a tree means, read from the top.

The music of a tree is made from the bottom: a literal becomes an event, and
every operator rebuilds the notes of what its operand has become.  A reader
goes the other way.  Going down to a literal he passes the operators around
it, the outermost first, and with their factors he knows all about its notes.
A literal together with those factors is a *site* (`Expr.sites`), and a site
says by itself what event it is (`Site.event`).

Both ways give the same music (`piece_eq_meaning`).  The step is that putting
an operator around an expression puts its factor in front at every site
(`sites_append`), and that rebuilding the notes of a site's event does just
that (`scaleFrequency_note`, `scaleVolume_note`).
-/
import JustIntonation.Notation.Meaning
import JustIntonation.Proofs.Except
import JustIntonation.Proofs.Quantity

namespace JustIntonation.Notation

/-! ### Literals -/

/-- The rational that a ratio literal denotes. -/
def RatioLiteral.quotient (r : RatioLiteral) : ℚ :=
  r.numerator.number / (r.denominator.map Literal.number).getD 1

/-- The ratio of a literal, in lowest terms. -/
def RatioLiteral.reduced (r : RatioLiteral) : Ratio :=
  ⟨r.quotient.num, r.quotient.den, by exact_mod_cast r.quotient.den_nz⟩

/-- The factors that a product literal writes down, in their order. -/
def ProductLiteral.factors (p : ProductLiteral) : List Ratio := p.ratios.map RatioLiteral.reduced

/-! ### Sites -/

/-- What a literal strikes: a note, or some notes together. -/
inductive Atom where
  | note (frequency : ProductLiteral)
  | chord (frequencies : List ProductLiteral)

def Atom.frequencies : Atom → List ProductLiteral
  | .note frequency => [frequency]
  | .chord frequencies => frequencies

/-- A note or chord literal with the factors of the operators around it, the outermost first. -/
structure Site where
  scales : List ProductLiteral
  gains : List ProductLiteral
  atom : Atom
  duration : ProductLiteral
  volume : Option ProductLiteral

namespace Site

/-- The frequency of a note: all factors around it, and then its own. -/
def frequency (s : Site) (own : ProductLiteral) : Quantity :=
  .product ⟨(s.scales ++ [own]).flatMap ProductLiteral.factors⟩

/-- The volume of the notes: all factors around them, and then those of the literal, of which
there is the one factor 1 if it has no volume; plainly 1 if there are no factors at all. -/
def loudness (s : Site) : Quantity :=
  if s.gains.isEmpty && s.volume.isNone then .one
  else .product ⟨s.gains.flatMap ProductLiteral.factors ++
    (s.volume.map ProductLiteral.factors).getD [.ofInt 1]⟩

/-- A note at a site: only its frequency is its own. -/
def note (s : Site) (own : ProductLiteral) : Note :=
  ⟨s.frequency own, .product ⟨s.duration.factors⟩, s.loudness⟩

def event (s : Site) : Event :=
  match s.atom with
  | .note own => .note (s.note own)
  | .chord owns => .chord (owns.map s.note)

theorem notes_event (s : Site) : s.event.notes = s.atom.frequencies.map s.note := by
  rw [event]
  cases s.atom <;> rfl

/-- A site with more operators around it. -/
def within (scales gains : List ProductLiteral) (s : Site) : Site :=
  { s with scales := scales ++ s.scales, gains := gains ++ s.gains }

end Site

mutual

/-- The literals of an expression in the order of writing, inside operators with the given
factors. -/
def Expr.sites (scales gains : List ProductLiteral) : Expr → List Site
  | .note frequency duration volume => [⟨scales, gains, .note frequency, duration, volume⟩]
  | .chord frequencies duration volume => [⟨scales, gains, .chord frequencies, duration, volume⟩]
  | .group items => Expr.sequenceSites scales gains items
  | .multiply factor body => body.sites (scales ++ [factor]) gains
  | .amplify body factor => body.sites scales (gains ++ [factor])

def Expr.sequenceSites (scales gains : List ProductLiteral) : List Expr → List Site
  | [] => []
  | item :: items => item.sites scales gains ++ Expr.sequenceSites scales gains items

end

/-- The music of a tree, literal by literal. -/
def Tree.meaning (t : Tree) : Piece :=
  ⟨t.parts.map fun items => ⟨(Expr.sequenceSites [] [] items).map Site.event⟩⟩

/-! ### Values of literals -/

theorem RatioLiteral.value_reduced (r : RatioLiteral) : r.reduced.value = r.quotient :=
  Rat.num_divInt_den r.quotient

theorem number_of_value {source : String} {l : Literal} {n : ℕ} (h : l.value source = .ok n) :
    n = l.number := by
  rw [Literal.value] at h
  split_ifs at h
  exact (Except.ok.inj h).symm

/-- What a ratio literal is read as is its rational in lowest terms. -/
theorem reduced_of_value {source : String} {r : RatioLiteral} {q : Ratio}
    (h : r.value source = .ok q) : q = r.reduced := by
  obtain ⟨n, hn, h⟩ := bind_eq_ok.mp h
  obtain rfl := number_of_value hn
  cases hdenominator : r.denominator with
  | none =>
    rw [hdenominator] at h
    obtain rfl := pure_eq_ok.mp h
    simp [RatioLiteral.reduced, RatioLiteral.quotient, hdenominator, Ratio.ofInt]
  | some l =>
    rw [hdenominator] at h
    obtain ⟨d, hd, h⟩ := bind_eq_ok.mp h
    obtain rfl := number_of_value hd
    split_ifs at h with hzero
    obtain rfl := pure_eq_ok.mp h
    simp [RatioLiteral.reduced, RatioLiteral.quotient, hdenominator, Ratio.ofTerms,
      Rat.divInt_eq_div]

theorem factors_of_value {source : String} {p : ProductLiteral} {q : Product}
    (h : p.value source = .ok q) : q = ⟨p.factors⟩ := by
  obtain ⟨ratios, hratios, hq⟩ := bind_eq_ok.mp h
  obtain rfl := pure_eq_ok.mp hq
  have hall := mapM_eq_ok.mp hratios
  rw [ProductLiteral.factors, Product.mk.injEq, ← List.forall₂_eq_eq_eq, List.forall₂_map_right_iff]
  exact hall.flip.imp fun _ _ => reduced_of_value

/-- The frequency of a note has the exact product of all factors as its value. -/
theorem Site.value_frequency (s : Site) (own : ProductLiteral) : (s.frequency own).value = .exact
    (((s.scales ++ [own]).flatMap ProductLiteral.ratios).map RatioLiteral.quotient).prod := by
  have hquotients : ((s.scales ++ [own]).flatMap ProductLiteral.factors).map Ratio.value
      = ((s.scales ++ [own]).flatMap ProductLiteral.ratios).map RatioLiteral.quotient := by
    rw [List.map_flatMap, List.map_flatMap]
    congr 1
    funext p
    rw [ProductLiteral.factors, List.map_map]
    exact List.map_congr_left fun r _ => RatioLiteral.value_reduced r
  rw [Site.frequency, Quantity.value, Product.value_eq_prod, hquotients]

/-! ### Operators around sites -/

/-- More operators around an expression are more operators around each of its literals. -/
theorem sites_append (scales' gains' : List ProductLiteral) :
    (∀ scales gains (e : Expr), e.sites (scales' ++ scales) (gains' ++ gains)
      = (e.sites scales gains).map (Site.within scales' gains')) ∧
    ∀ scales gains (items : List Expr),
      Expr.sequenceSites (scales' ++ scales) (gains' ++ gains) items
        = (Expr.sequenceSites scales gains items).map (Site.within scales' gains') := by
  apply Expr.sites.mutual_induct
  case case1 | case2 =>
    intros
    rfl
  case case3 =>
    intro scales gains items ih
    rw [Expr.sites, Expr.sites, ih]
  case case4 =>
    intro scales gains factor body ih
    rw [Expr.sites, Expr.sites, List.append_assoc, ih]
  case case5 =>
    intro scales gains body factor ih
    rw [Expr.sites, Expr.sites, List.append_assoc, ih]
  case case6 =>
    intros
    rfl
  case case7 =>
    intro scales gains item items ihItem ihItems
    rw [Expr.sequenceSites, Expr.sequenceSites, ihItem, ihItems, List.map_append]

/-- To put operators around a site is to rebuild its notes. -/
theorem Site.mapNotes_event {s : Site} {f : Note → Except Fault Note}
    {scales gains : List ProductLiteral}
    (h : ∀ own, f (s.note own) = .ok ((s.within scales gains).note own)) :
    s.event.mapNotes f = .ok (s.within scales gains).event := by
  have hatom : (s.within scales gains).atom = s.atom := rfl
  rw [event, event, hatom]
  cases s.atom with
  | note own => exact bind_eq_ok.mpr ⟨_, h own, rfl⟩
  | chord owns =>
    refine bind_eq_ok.mpr ⟨owns.map (s.within scales gains).note, mapM_eq_ok.mpr ?_, rfl⟩
    rw [List.forall₂_map_left_iff, List.forall₂_map_right_iff, List.forall₂_same]
    exact fun own _ => h own

theorem scaleFrequency_note (p : ProductLiteral) (s : Site) (own : ProductLiteral) :
    scaleFrequency ⟨p.factors⟩ (s.note own) = .ok ((s.within [p] []).note own) := rfl

/-- One more gain around a site: its factors come in front, and a volume of plainly 1 becomes the
last of the factors. -/
theorem Site.scaled_loudness (p : ProductLiteral) (s : Site) :
    s.loudness.scaled ⟨p.factors⟩ = .ok (s.within [] [p]).loudness := by
  have hafter : (s.within [] [p]).loudness = .product ⟨(p :: s.gains).flatMap
      ProductLiteral.factors ++ (s.volume.map ProductLiteral.factors).getD [.ofInt 1]⟩ := rfl
  rw [hafter, List.flatMap_cons, List.append_assoc, loudness]
  split_ifs with hplain
  · obtain ⟨hgains, hvolume⟩ := Bool.and_eq_true_iff.mp hplain
    rw [List.isEmpty_iff.mp hgains, Option.isNone_iff_eq_none.mp hvolume]
    rfl
  · rfl

theorem scaleVolume_note (p : ProductLiteral) (s : Site) (own : ProductLiteral) :
    scaleVolume ⟨p.factors⟩ (s.note own) = .ok ((s.within [] [p]).note own) := by
  have hvolume : (s.note own).volume.scaled ⟨p.factors⟩ = .ok (s.within [] [p]).loudness :=
    s.scaled_loudness p
  rw [scaleVolume, hvolume]
  rfl

/-- An operator around an expression, made at every site of it. -/
theorem operator_eq_ok {scales gains : List ProductLiteral} {f : Note → Except Fault Note}
    (h : ∀ (s : Site) own, f (s.note own) = .ok ((s.within scales gains).note own))
    {sites : List Site} {events : List Event}
    (hevents : (sites.map Site.event).mapM (Event.mapNotes f) = .ok events) :
    events = (sites.map (Site.within scales gains)).map Site.event := by
  have hall := mapM_eq_ok.mp hevents
  rw [List.forall₂_map_left_iff] at hall
  rw [List.map_map, ← List.forall₂_eq_eq_eq, List.forall₂_map_right_iff]
  refine hall.flip.imp fun e s he => ?_
  rw [Site.mapNotes_event (h s)] at he
  exact (Except.ok.inj he).symm

/-! ### Trees -/

section Trees

variable {source : String} {events : List Event}

/-- The volume that a literal gives where no operator is around it. -/
theorem loudness_of_volumeOf {s : Site} (hgains : s.gains = []) {q : Quantity}
    (h : volumeOf source s.volume = .ok q) : q = s.loudness := by
  rw [Site.loudness, hgains]
  cases hvolume : s.volume with
  | none =>
    rw [hvolume] at h
    exact (Except.ok.inj h).symm
  | some v =>
    rw [hvolume] at h
    obtain ⟨p, hp, h⟩ := bind_eq_ok.mp h
    obtain rfl := pure_eq_ok.mp h
    rw [factors_of_value hp]
    rfl

theorem events_note {frequency duration : ProductLiteral} {volume : Option ProductLiteral}
    (h : Expr.events source (.note frequency duration volume) = .ok events) :
    events = [Site.event ⟨[], [], .note frequency, duration, volume⟩] := by
  simp only [Expr.events, bind_eq_ok, pure_eq_ok] at h
  obtain ⟨f, hf, d, hd, v, hv, rfl⟩ := h
  obtain rfl := factors_of_value hf
  obtain rfl := factors_of_value hd
  obtain rfl := loudness_of_volumeOf
    (s := ⟨[], [], .note frequency, duration, volume⟩) rfl hv
  simp [Site.event, Site.note, Site.frequency]

theorem events_chord {frequencies : List ProductLiteral} {duration : ProductLiteral}
    {volume : Option ProductLiteral}
    (h : Expr.events source (.chord frequencies duration volume) = .ok events) :
    events = [Site.event ⟨[], [], .chord frequencies, duration, volume⟩] := by
  simp only [Expr.events, bind_eq_ok, pure_eq_ok, mapM_eq_ok] at h
  obtain ⟨d, hd, v, hv, notes, hnotes, rfl⟩ := h
  obtain rfl := factors_of_value hd
  obtain rfl := loudness_of_volumeOf
    (s := ⟨[], [], .chord frequencies, duration, volume⟩) rfl hv
  -- The members have their frequencies in their own order, and share the rest.
  have hmembers : notes = frequencies.map
      (Site.note ⟨[], [], .chord frequencies, duration, volume⟩) := by
    rw [← List.forall₂_eq_eq_eq, List.forall₂_map_right_iff]
    refine hnotes.flip.imp fun n own hn => ?_
    obtain ⟨f, hf, rfl⟩ := hn
    obtain rfl := factors_of_value hf
    simp [Site.note, Site.frequency]
  rw [hmembers]
  rfl

theorem events_eq_map_event (source : String) :
    (∀ (e : Expr) events, e.events source = .ok events → events = (e.sites [] []).map Site.event) ∧
    ∀ (items : List Expr) events, Expr.sequenceEvents source items = .ok events →
      events = (Expr.sequenceSites [] [] items).map Site.event := by
  apply Expr.events.mutual_induct
  case case1 => exact fun frequency duration volume events => events_note
  case case2 => exact fun frequencies duration volume events => events_chord
  case case3 =>
    intro items ih events h
    rw [Expr.events] at h
    exact ih events h
  case case4 =>
    intro factor body ih events h
    simp only [Expr.events, bind_eq_ok] at h
    obtain ⟨p, hp, inner, hinner, h⟩ := h
    rw [factors_of_value hp, ih inner hinner] at h
    rw [operator_eq_ok (scaleFrequency_note factor) h, ← (sites_append [factor] []).1]
    rfl
  case case5 =>
    intro body factor ih events h
    simp only [Expr.events, bind_eq_ok] at h
    obtain ⟨p, hp, inner, hinner, h⟩ := h
    rw [factors_of_value hp, ih inner hinner] at h
    rw [operator_eq_ok (scaleVolume_note factor) h, ← (sites_append [] [factor]).1]
    rfl
  case case6 =>
    intro events h
    rw [Expr.sequenceEvents] at h
    obtain rfl := Except.ok.inj h
    rfl
  case case7 =>
    intro item items ihItem ihItems events h
    simp only [Expr.sequenceEvents, bind_eq_ok, pure_eq_ok] at h
    obtain ⟨first, hfirst, rest, hrest, rfl⟩ := h
    rw [ihItem first hfirst, ihItems rest hrest, Expr.sequenceSites, List.map_append]

/-- The music of a tree that can be evaluated is that of its literals, each with the factors of
the operators around it. -/
theorem piece_eq_meaning {tree : Tree} {piece : Piece} (h : tree.piece source = .ok piece) :
    piece = tree.meaning := by
  simp only [Tree.piece, bind_eq_ok, mapM_eq_ok, pure_eq_ok] at h
  obtain ⟨parts, hparts, rfl⟩ := h
  rw [Tree.meaning, Piece.mk.injEq, ← List.forall₂_eq_eq_eq, List.forall₂_map_right_iff]
  refine hparts.flip.imp fun part items hpart => ?_
  obtain ⟨events, hevents, rfl⟩ := hpart
  rw [(events_eq_map_event source).2 items events hevents]

theorem parse_eq_ok {piece : Piece} : Piece.parse source = .ok piece ↔
    ∃ tree, Tree.parse source = .ok tree ∧ tree.piece source = .ok piece := by
  rw [Piece.parse]
  cases Tree.parse source with
  | ok tree => simp
  | error e => simp

/-- Notes that were written as one literal are equally loud. -/
theorem volume_eq_of_parse {piece : Piece} (h : Piece.parse source = .ok piece) {part : Part}
    (hpart : part ∈ piece.parts) {e : Event} (he : e ∈ part.events) {n m : Note}
    (hn : n ∈ e.notes) (hm : m ∈ e.notes) : n.volume = m.volume := by
  obtain ⟨tree, -, hpiece⟩ := parse_eq_ok.mp h
  obtain rfl := piece_eq_meaning hpiece
  obtain ⟨items, -, rfl⟩ := List.mem_map.mp hpart
  obtain ⟨s, -, rfl⟩ := List.mem_map.mp he
  rw [Site.notes_event] at hn hm
  obtain ⟨own, -, rfl⟩ := List.mem_map.mp hn
  obtain ⟨own', -, rfl⟩ := List.mem_map.mp hm
  rfl

/-- Whatever the nesting of a tree that can be evaluated, its music is that of its literals in
the order of writing; and a note of a literal has as its frequency the exact product of all
factors around it and of its own. -/
theorem music_of_literals {tree : Tree} {piece : Piece} (h : tree.piece source = .ok piece) :
    piece = tree.meaning ∧
    ∀ items ∈ tree.parts, ∀ s ∈ Expr.sequenceSites [] [] items, ∀ n ∈ s.event.notes,
      ∃ own ∈ s.atom.frequencies, n = s.note own ∧ n.frequency.value = .exact
        (((s.scales ++ [own]).flatMap ProductLiteral.ratios).map RatioLiteral.quotient).prod := by
  refine ⟨piece_eq_meaning h, ?_⟩
  intro items _ s _ n hn
  rw [Site.notes_event] at hn
  obtain ⟨own, hown, rfl⟩ := List.mem_map.mp hn
  exact ⟨own, hown, rfl, s.value_frequency own⟩

theorem music_of_literals_nested : ∃ tree piece,
    Tree.parse "3/2*(1:1 2*<1 5/4>:1/2**9/8)**1/2; 0:2:3" = .ok tree ∧
    tree.piece "3/2*(1:1 2*<1 5/4>:1/2**9/8)**1/2; 0:2:3" = .ok piece ∧
    piece = tree.meaning ∧
    ∀ items ∈ tree.parts, ∀ s ∈ Expr.sequenceSites [] [] items, ∀ n ∈ s.event.notes,
      ∃ own ∈ s.atom.frequencies, n = s.note own ∧ n.frequency.value = .exact
        (((s.scales ++ [own]).flatMap ProductLiteral.ratios).map RatioLiteral.quotient).prod := by
  have hok : (Piece.parse "3/2*(1:1 2*<1 5/4>:1/2**9/8)**1/2; 0:2:3").isOk = true := by
    decide +kernel
  obtain ⟨piece, hparse⟩ := exists_eq_ok hok
  obtain ⟨tree, htree, hpiece⟩ := parse_eq_ok.mp hparse
  exact ⟨tree, piece, htree, hpiece, music_of_literals hpiece⟩

end Trees

end JustIntonation.Notation
