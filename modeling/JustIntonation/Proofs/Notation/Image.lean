/-
JustIntonation/Proofs/Notation/Image.lean

What music can be written.

The notation has integers without a sign and of a limited size, ratios of them
with a denominator that is not zero, products of at least one ratio, and
chords whose notes have their duration and their volume in common.  What can
be made of this by grouping and by its operators has all these properties
still: a factor put in front of a quantity makes the product longer and
leaves what is in it as it is.  Music that has them is called well formed
(`Piece.WellFormed`).

Main result: every piece that is read is well formed
(`wellFormed_of_parse`).
-/
import JustIntonation.Proofs.Notation.Evaluation
import JustIntonation.Proofs.Notation.Soundness

namespace JustIntonation

/-! ### Well-formed music -/

/-- A ratio in lowest terms that is not negative, with terms that an integer can hold. -/
structure Ratio.WellFormed (r : Ratio) : Prop where
  nonneg : 0 ≤ r.num
  num_le : r.num ≤ Notation.largestInteger
  pos : 0 < r.den
  den_le : r.den ≤ Notation.largestInteger
  reduced : Nat.Coprime r.num.natAbs r.den.natAbs

/-- A product of at least one ratio. -/
structure Product.WellFormed (p : Product) : Prop where
  nonempty : p.factors ≠ []
  factors : ∀ r ∈ p.factors, r.WellFormed

/-- A quantity that is such a product. -/
def Quantity.WellFormed : Quantity → Prop
  | .product p => p.WellFormed
  | .ratio _ | .power _ => False

structure Note.WellFormed (n : Note) : Prop where
  frequency : n.frequency.WellFormed
  duration : n.duration.WellFormed
  volume : n.volume = .one ∨ n.volume.WellFormed

/-- The notes of an event have all but their frequencies in common. -/
structure Event.WellFormed (e : Event) : Prop where
  notes : ∀ n ∈ e.notes, n.WellFormed
  shared : ∀ n ∈ e.notes, ∀ m ∈ e.notes, n.duration = m.duration ∧ n.volume = m.volume

structure Piece.WellFormed (p : Piece) : Prop where
  nonempty : p.parts ≠ []
  events : ∀ part ∈ p.parts, ∀ e ∈ part.events, e.WellFormed

instance (r : Ratio) : Decidable r.WellFormed :=
  decidable_of_iff (0 ≤ r.num ∧ r.num ≤ Notation.largestInteger ∧ 0 < r.den ∧
      r.den ≤ Notation.largestInteger ∧ Nat.Coprime r.num.natAbs r.den.natAbs)
    ⟨fun ⟨h₁, h₂, h₃, h₄, h₅⟩ => ⟨h₁, h₂, h₃, h₄, h₅⟩,
      fun ⟨h₁, h₂, h₃, h₄, h₅⟩ => ⟨h₁, h₂, h₃, h₄, h₅⟩⟩

instance (p : Product) : Decidable p.WellFormed :=
  decidable_of_iff (p.factors ≠ [] ∧ ∀ r ∈ p.factors, r.WellFormed)
    ⟨fun ⟨h₁, h₂⟩ => ⟨h₁, h₂⟩, fun ⟨h₁, h₂⟩ => ⟨h₁, h₂⟩⟩

instance : ∀ q : Quantity, Decidable q.WellFormed
  | .product p => inferInstanceAs (Decidable p.WellFormed)
  | .ratio _ | .power _ => inferInstanceAs (Decidable False)

instance (n : Note) : Decidable n.WellFormed :=
  decidable_of_iff (n.frequency.WellFormed ∧ n.duration.WellFormed ∧
      (n.volume = .one ∨ n.volume.WellFormed))
    ⟨fun ⟨h₁, h₂, h₃⟩ => ⟨h₁, h₂, h₃⟩, fun ⟨h₁, h₂, h₃⟩ => ⟨h₁, h₂, h₃⟩⟩

instance (e : Event) : Decidable e.WellFormed :=
  decidable_of_iff ((∀ n ∈ e.notes, n.WellFormed) ∧
      ∀ n ∈ e.notes, ∀ m ∈ e.notes, n.duration = m.duration ∧ n.volume = m.volume)
    ⟨fun ⟨h₁, h₂⟩ => ⟨h₁, h₂⟩, fun ⟨h₁, h₂⟩ => ⟨h₁, h₂⟩⟩

instance (p : Piece) : Decidable p.WellFormed :=
  decidable_of_iff (p.parts ≠ [] ∧ ∀ part ∈ p.parts, ∀ e ∈ part.events, e.WellFormed)
    ⟨fun ⟨h₁, h₂⟩ => ⟨h₁, h₂⟩, fun ⟨h₁, h₂⟩ => ⟨h₁, h₂⟩⟩

namespace Notation

/-! ### Literals -/

/-- Reducing a fraction makes its terms no larger. -/
theorem divInt_terms_le {n d : ℕ} (hd : 0 < d) :
    0 ≤ (Rat.divInt n d).num ∧ (Rat.divInt n d).num ≤ n ∧ ((Rat.divInt n d).den : ℤ) ≤ d := by
  have hpos : (0 : ℤ) < d := by exact_mod_cast hd
  refine ⟨?_, ?_, Int.le_of_dvd hpos (Rat.den_dvd _ _)⟩
  · exact Rat.num_nonneg.mpr (Rat.divInt_nonneg (by exact_mod_cast Nat.zero_le n) hpos.le)
  · rcases Nat.eq_zero_or_pos n with rfl | hn
    · simp
    · exact Int.le_of_dvd (by exact_mod_cast hn) (Rat.num_dvd _ hpos.ne')

theorem RatioLiteral.Evaluable.wellFormed {r : RatioLiteral} (h : r.Evaluable) :
    r.reduced.WellFormed := by
  obtain ⟨n, d, hd, hquotient, hn, hle⟩ : ∃ n d : ℕ, 0 < d ∧ r.quotient = Rat.divInt n d ∧
      n ≤ largestInteger ∧ d ≤ largestInteger := by
    obtain ⟨numerator, denominator⟩ := r
    obtain ⟨hnumerator, hdenominator⟩ := h
    cases denominator with
    | none => exact ⟨numerator.number, 1, Nat.one_pos, by simp [quotient], hnumerator, by decide⟩
    | some l =>
      obtain ⟨hle, hne⟩ := hdenominator l rfl
      refine ⟨numerator.number, l.number, Nat.pos_of_ne_zero hne, ?_, hnumerator, hle⟩
      simp [quotient, Rat.divInt_eq_div]
  obtain ⟨hnonneg, hnum, hden⟩ := divInt_terms_le (n := n) hd
  rw [← hquotient] at hnonneg hnum hden
  exact
    { nonneg := hnonneg
      num_le := le_trans hnum (by exact_mod_cast hn)
      pos := by
        show (0 : ℤ) < r.quotient.den
        exact_mod_cast r.quotient.den_pos
      den_le := le_trans hden (by exact_mod_cast hle)
      reduced := r.quotient.reduced }

theorem ProductLiteral.Evaluable.wellFormed {p : ProductLiteral} (h : p.Evaluable) :
    ∀ r ∈ p.factors, r.WellFormed := by
  intro r hr
  obtain ⟨literal, hliteral, rfl⟩ := List.mem_map.mp hr
  exact (h literal hliteral).wellFormed

/-- The factors of products one behind the other, if there is one. -/
theorem wellFormed_flatMap {ps : List ProductLiteral} (hne : ps ≠ [])
    (h : ∀ p ∈ ps, p.Canonical ∧ p.Evaluable) :
    Product.WellFormed ⟨ps.flatMap ProductLiteral.factors⟩ where
  nonempty := by
    obtain ⟨p, ps, rfl⟩ := List.exists_cons_of_ne_nil hne
    have hfirst : p.factors ≠ [] := by
      rw [ProductLiteral.factors, ne_eq, List.map_eq_nil_iff]
      exact (h p List.mem_cons_self).1.1
    exact List.append_ne_nil_of_left_ne_nil hfirst _
  factors := by
    intro r hr
    obtain ⟨p, hp, hr⟩ := List.mem_flatMap.mp hr
    exact (h p hp).2.wellFormed r hr

theorem wellFormed_factors {p : ProductLiteral} (h : p.Canonical ∧ p.Evaluable) :
    Product.WellFormed ⟨p.factors⟩ := by
  have hall := wellFormed_flatMap (List.cons_ne_nil p []) (List.forall_mem_singleton.mpr h)
  rwa [List.flatMap_singleton] at hall

/-! ### Sites -/

/-- The products that a site is made of. -/
def Site.products (s : Site) : List ProductLiteral :=
  s.scales ++ (s.gains ++ (s.atom.frequencies ++ s.duration :: s.volume.toList))

theorem Site.wellFormed_frequency {s : Site} (h : ∀ p ∈ s.products, p.Canonical ∧ p.Evaluable)
    {own : ProductLiteral} (hown : own ∈ s.atom.frequencies) : (s.frequency own).WellFormed := by
  apply wellFormed_flatMap (List.append_ne_nil_of_right_ne_nil _ (List.cons_ne_nil _ _))
  intro p hp
  apply h p
  rcases List.mem_append.mp hp with hp | hp
  · simp [products, hp]
  · obtain rfl := List.mem_singleton.mp hp
    simp [products, hown]

theorem Site.wellFormed_loudness {s : Site} (h : ∀ p ∈ s.products, p.Canonical ∧ p.Evaluable) :
    s.loudness = .one ∨ s.loudness.WellFormed := by
  rw [loudness]
  split_ifs with hplain
  · exact .inl rfl
  · right
    have hgains : ∀ p ∈ s.gains, p.Canonical ∧ p.Evaluable := fun p hp =>
      h p (by simp [products, hp])
    cases hvolume : s.volume with
    | none =>
      have hone : (Ratio.ofInt 1).WellFormed := by decide
      refine ⟨List.append_ne_nil_of_right_ne_nil _ (List.cons_ne_nil _ _), ?_⟩
      exact List.forall_mem_append.mpr
        ⟨List.forall_mem_flatMap.mpr fun p hp => (hgains p hp).2.wellFormed,
          List.forall_mem_singleton.mpr hone⟩
    | some v =>
      have hv : v.Canonical ∧ v.Evaluable := h v (by simp [products, hvolume])
      have hall := wellFormed_flatMap (List.append_ne_nil_of_right_ne_nil s.gains
        (List.cons_ne_nil v [])) (List.forall_mem_append.mpr
          ⟨hgains, List.forall_mem_singleton.mpr hv⟩)
      rwa [List.flatMap_append, List.flatMap_singleton] at hall

theorem Site.wellFormed_event {s : Site} (h : ∀ p ∈ s.products, p.Canonical ∧ p.Evaluable) :
    s.event.WellFormed := by
  have hduration : Product.WellFormed ⟨s.duration.factors⟩ :=
    wellFormed_factors (h _ (by simp [products]))
  constructor
  · intro n hn
    rw [notes_event] at hn
    obtain ⟨own, hown, rfl⟩ := List.mem_map.mp hn
    exact ⟨wellFormed_frequency h hown, hduration, wellFormed_loudness h⟩
  · intro n hn m hm
    rw [notes_event] at hn hm
    obtain ⟨own, -, rfl⟩ := List.mem_map.mp hn
    obtain ⟨own', -, rfl⟩ := List.mem_map.mp hm
    exact ⟨rfl, rfl⟩

/-- What a site is made of stands in the expression or around it. -/
theorem products_of_mem_sites :
    (∀ scales gains (e : Expr), ∀ s ∈ e.sites scales gains, ∀ p ∈ s.products,
      p ∈ scales ∨ p ∈ gains ∨ p ∈ e.products) ∧
    ∀ scales gains (items : List Expr), ∀ s ∈ Expr.sequenceSites scales gains items,
      ∀ p ∈ s.products, p ∈ scales ∨ p ∈ gains ∨ p ∈ Expr.sequenceProducts items := by
  apply Expr.sites.mutual_induct
  case case1 | case2 =>
    intro scales gains _ _ _ s hs p hp
    obtain rfl := List.mem_singleton.mp hs
    simpa [Site.products, Atom.frequencies, Expr.products, or_assoc] using hp
  case case3 =>
    intro scales gains items ih s hs p hp
    rw [Expr.products]
    exact ih s hs p hp
  case case4 =>
    intro scales gains factor body ih s hs p hp
    have h := ih s hs p hp
    simp only [List.mem_append, List.mem_cons, List.not_mem_nil, Expr.products] at h ⊢
    tauto
  case case5 =>
    intro scales gains body factor ih s hs p hp
    have h := ih s hs p hp
    simp only [List.mem_append, List.mem_singleton, Expr.products] at h ⊢
    tauto
  case case6 => exact fun scales gains s hs => absurd hs List.not_mem_nil
  case case7 =>
    intro scales gains item items ihItem ihItems s hs p hp
    rw [Expr.sequenceProducts, List.mem_append]
    rcases List.mem_append.mp hs with hs | hs
    · rcases ihItem s hs p hp with h | h | h
      · exact .inl h
      · exact .inr (.inl h)
      · exact .inr (.inr (.inl h))
    · rcases ihItems s hs p hp with h | h | h
      · exact .inl h
      · exact .inr (.inl h)
      · exact .inr (.inr (.inr h))

/-! ### Trees -/

theorem Expr.Canonical.products {e : Expr} (h : e.Canonical) : ∀ p ∈ e.products, p.Canonical := by
  induction h with
  | note hf hd hv =>
    rw [Expr.products]
    exact List.forall_mem_cons.mpr ⟨hf, List.forall_mem_cons.mpr ⟨hd, by simpa using hv⟩⟩
  | chord hfs hd hv =>
    rw [Expr.products]
    exact List.forall_mem_append.mpr ⟨hfs, List.forall_mem_cons.mpr ⟨hd, by simpa using hv⟩⟩
  | @group es _ ih =>
    rw [Expr.products, Expr.sequenceProducts_eq_flatMap]
    exact List.forall_mem_flatMap.mpr ih
  | multiply hf _ _ ih =>
    rw [Expr.products]
    exact List.forall_mem_cons.mpr ⟨hf, ih⟩
  | amplify _ _ hf ih =>
    rw [Expr.products]
    exact List.forall_mem_append.mpr ⟨ih, List.forall_mem_singleton.mpr hf⟩

/-- What a canonical tree means, if it can be evaluated, is well formed. -/
theorem wellFormed_meaning {t : Tree} (ht : t.Canonical) (h : t.Evaluable) :
    t.meaning.WellFormed := by
  have hproducts : ∀ items ∈ t.parts, ∀ p ∈ Expr.sequenceProducts items,
      p.Canonical ∧ p.Evaluable := by
    intro items hitems p hp
    refine ⟨?_, h p (List.mem_flatMap.mpr ⟨items, hitems, hp⟩)⟩
    rw [Expr.sequenceProducts_eq_flatMap] at hp
    obtain ⟨e, he, hp⟩ := List.mem_flatMap.mp hp
    exact (ht.items items hitems e he).products p hp
  constructor
  · rw [Tree.meaning, ne_eq, List.map_eq_nil_iff]
    exact ht.nonempty
  · intro part hpart e he
    obtain ⟨items, hitems, rfl⟩ := List.mem_map.mp hpart
    obtain ⟨s, hs, rfl⟩ := List.mem_map.mp he
    apply Site.wellFormed_event
    intro p hp
    rcases products_of_mem_sites.2 [] [] items s hs p hp with hnone | hnone | hp
    · cases hnone
    · cases hnone
    · exact hproducts items hitems p hp

end Notation

/-- Every piece that is read is well formed. -/
theorem wellFormed_of_parse {source : String} {piece : Piece}
    (h : Piece.parse source = .ok piece) : piece.WellFormed := by
  obtain ⟨t, ht, hpiece⟩ := Notation.parse_eq_ok.mp h
  obtain ⟨hevaluable, rfl⟩ := Notation.piece_eq_ok.mp hpiece
  exact Notation.wellFormed_meaning (Notation.canonical_of_parse ht) hevaluable

end JustIntonation
