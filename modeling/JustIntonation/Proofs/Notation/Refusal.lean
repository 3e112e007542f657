/-
JustIntonation/Proofs/Notation/Refusal.lean

What is said of a text with literals that cannot be evaluated.

Evaluation does not go through a text from left to right: in
`<3/0 1>:99999999999999999999` the duration is looked at before the
frequencies.  So the literal that is reported need not be the leftmost of
those that are refused, but it is one of them, and what is said of it is true
of it.

Main result: a text is refused exactly if it is no tree or a literal of its
tree is refused, and the error then stands where such a literal begins
(`parse_refused_iff`).
-/
import JustIntonation.Proofs.Notation.Evaluation
import JustIntonation.Proofs.Notation.Soundness

namespace JustIntonation.Notation

/-! ### The literals of a tree -/

/-- The denominators of a product. -/
def ProductLiteral.denominators (p : ProductLiteral) : List Literal :=
  p.ratios.filterMap RatioLiteral.denominator

def Tree.denominators (t : Tree) : List Literal :=
  t.products.flatMap ProductLiteral.denominators

/-- The literals of an expression are those of its products. -/
theorem literals_eq_flatMap :
    (∀ e : Expr, e.literals = e.products.flatMap ProductLiteral.literals) ∧
    ∀ items : List Expr, Expr.sequenceLiterals items
      = (Expr.sequenceProducts items).flatMap ProductLiteral.literals := by
  apply Expr.products.mutual_induct
  case case1 =>
    intro f d v
    rw [Expr.literals, Expr.products, List.flatMap_cons, List.flatMap_cons]
    rfl
  case case2 =>
    intro fs d v
    rw [Expr.literals, Expr.products, List.flatMap_append, List.flatMap_cons]
    rfl
  case case3 =>
    intro items ih
    rw [Expr.literals, Expr.products, ih]
  case case4 =>
    intro f body ih
    rw [Expr.literals, Expr.products, ih, List.flatMap_cons]
  case case5 =>
    intro body f ih
    rw [Expr.literals, Expr.products, ih, List.flatMap_append, List.flatMap_singleton]
  case case6 => rfl
  case case7 =>
    intro item items ihItem ihItems
    rw [Expr.sequenceLiterals, Expr.sequenceProducts, ihItem, ihItems, List.flatMap_append]

theorem Tree.mem_literals {t : Tree} {l : Literal} :
    l ∈ t.literals ↔ ∃ p ∈ t.products, l ∈ p.literals := by
  have hliterals : t.literals = t.products.flatMap ProductLiteral.literals := by
    rw [literals, products, List.flatMap_assoc]
    exact congrArg (t.parts.flatMap ·) (funext literals_eq_flatMap.2)
  rw [hliterals, List.mem_flatMap]

/-! ### Refused literals -/

/-- A literal of a tree cannot be evaluated, and a message says why. -/
inductive Tree.Refuses (t : Tree) : Literal → String → Prop
  | tooLarge {l : Literal} (mem : l ∈ t.literals) (large : largestInteger < l.number) :
      t.Refuses l "integer is too large"
  | zeroDenominator {l : Literal} (mem : l ∈ t.denominators) (zero : l.number = 0) :
      t.Refuses l "denominator must not be zero"

theorem Literal.mem_refusals {l : Literal} {r : Refusal} : r ∈ l.refusals ↔
    largestInteger < l.number ∧ r = ⟨l, "integer is too large"⟩ := by
  rw [refusals, ← not_le]
  split_ifs with hfits
  · simp [hfits]
  · simp [hfits]

theorem Literal.mem_denominatorRefusals {d : Literal} {r : Refusal} :
    r ∈ d.denominatorRefusals ↔
      r ∈ d.refusals ∨ d.number = 0 ∧ r = ⟨d, "denominator must not be zero"⟩ := by
  rw [denominatorRefusals, List.mem_append]
  split_ifs with hzero
  · simp [hzero]
  · simp [hzero]

/-- The refused literals of a product are those that are too large, and denominators of zero. -/
theorem ProductLiteral.mem_refusals {p : ProductLiteral} {r : Refusal} : r ∈ p.refusals ↔
    (∃ l ∈ p.literals, r ∈ l.refusals) ∨
      ∃ d ∈ p.denominators, d.number = 0 ∧ r = ⟨d, "denominator must not be zero"⟩ := by
  have hratio : ∀ q : RatioLiteral, r ∈ q.refusals ↔ (∃ l ∈ q.literals, r ∈ l.refusals) ∨
      ∃ d, q.denominator = some d ∧ d.number = 0 ∧
        r = ⟨d, "denominator must not be zero"⟩ := by
    rintro ⟨numerator, - | d⟩
    · simp [RatioLiteral.refusals, RatioLiteral.literals]
    · simp [RatioLiteral.refusals, RatioLiteral.literals, Literal.mem_denominatorRefusals,
        or_assoc]
  simp only [refusals, literals, denominators, List.mem_flatMap, List.mem_filterMap, hratio]
  grind

theorem Tree.refuses_iff {t : Tree} {l : Literal} {message : String} :
    t.Refuses l message ↔ ⟨l, message⟩ ∈ t.refusals := by
  simp only [refusals, List.mem_flatMap, mem_evaluated, ProductLiteral.mem_refusals,
    Literal.mem_refusals]
  constructor
  · rintro (⟨hmem, hlarge⟩ | ⟨hmem, hzero⟩)
    · obtain ⟨p, hp, hl⟩ := mem_literals.mp hmem
      exact ⟨p, hp, .inl ⟨l, hl, hlarge, rfl⟩⟩
    · obtain ⟨p, hp, hl⟩ := List.mem_flatMap.mp hmem
      exact ⟨p, hp, .inr ⟨l, hl, hzero, rfl⟩⟩
  · rintro ⟨p, hp, ⟨l', hl, hlarge, hrefusal⟩ | ⟨d, hd, hzero, hrefusal⟩⟩
    · obtain ⟨rfl, rfl⟩ := Refusal.mk.inj hrefusal
      exact .tooLarge (mem_literals.mpr ⟨p, hp, hl⟩) hlarge
    · obtain ⟨rfl, rfl⟩ := Refusal.mk.inj hrefusal
      exact .zeroDenominator (List.mem_flatMap.mpr ⟨p, hp, hd⟩) hzero

theorem Tree.Refuses.mem_literals {t : Tree} {l : Literal} {message : String}
    (h : t.Refuses l message) : l ∈ t.literals := by
  cases h with
  | tooLarge mem _ => exact mem
  | zeroDenominator mem _ =>
    obtain ⟨p, hp, hl⟩ := List.mem_flatMap.mp mem
    obtain ⟨r, hr, hdenominator⟩ := List.mem_filterMap.mp hl
    refine Tree.mem_literals.mpr ⟨p, hp, List.mem_flatMap.mpr ⟨r, hr, ?_⟩⟩
    rw [RatioLiteral.literals, hdenominator]
    exact List.mem_cons_of_mem _ (List.mem_singleton_self l)

/-! ### Refused texts -/

/-- A tree with literals that are refused fails at the first of them in the order of evaluation,
and the error stands where that literal begins. -/
theorem parse_of_refuses {source : String} {t : Tree} (ht : Tree.parse source = .ok t)
    (h : ∃ l message, t.Refuses l message) :
    ∃ e l, Piece.parse source = .error (.malformed e) ∧ t.Refuses l e.message ∧
      e.offset = l.start ∧ t.refusals.head? = some ⟨l, e.message⟩ := by
  obtain ⟨l', message', hrefuses⟩ := h
  obtain ⟨⟨l, message⟩, hhead⟩ : ∃ r, t.refusals.head? = some r := by
    rw [← Option.isSome_iff_exists, List.isSome_head?]
    exact List.ne_nil_of_mem (Tree.refuses_iff.mp hrefuses)
  have hfirst : t.Refuses l message := Tree.refuses_iff.mpr (List.mem_of_head? hhead)
  -- The literal stands in the text, so the error is located at its place.
  obtain ⟨before, after, htext, hstart, -⟩ :=
    ((ink_and_places_of_parse ht).2.2.1 l hfirst.mem_literals).1
  rw [Nat.zero_add] at hstart
  refine ⟨.locate source l.start message, l, ?_, hfirst, ?_, hhead⟩
  · rw [Piece.parse, ht]
    exact (stopsAt_piece source t).eq_error_iff.mpr ⟨_, hhead, rfl⟩
  · rw [hstart, offset_locate htext]

/-- A text is refused exactly if it is no tree or its tree has a literal that is refused.  In the
second case the error stands where such a literal begins, the first of them in the order of
evaluation, and its message is true of that literal. -/
theorem parse_refused_iff (source : String) :
    ((∃ f, Piece.parse source = .error f) ↔ (∃ e, Tree.parse source = .error e) ∨
      ∃ t, Tree.parse source = .ok t ∧ ∃ l message, t.Refuses l message) ∧
    ∀ t, Tree.parse source = .ok t → (∃ l message, t.Refuses l message) →
      ∃ e l, Piece.parse source = .error (.malformed e) ∧ t.Refuses l e.message ∧
        e.offset = l.start ∧ t.refusals.head? = some ⟨l, e.message⟩ := by
  refine ⟨⟨?_, ?_⟩, fun t => parse_of_refuses⟩
  · rintro ⟨f, hf⟩
    rw [Piece.parse] at hf
    cases ht : Tree.parse source with
    | error e => exact .inl ⟨e, rfl⟩
    | ok t =>
      rw [ht] at hf
      obtain ⟨r, hhead, -⟩ := (stopsAt_piece source t).eq_error_iff.mp hf
      exact .inr ⟨t, rfl, r.literal, r.message, Tree.refuses_iff.mpr (List.mem_of_head? hhead)⟩
  · rintro (⟨e, he⟩ | ⟨t, ht, hrefuses⟩)
    · exact ⟨.malformed e, by rw [Piece.parse, he]⟩
    · obtain ⟨e, -, herror, -⟩ := parse_of_refuses ht hrefuses
      exact ⟨_, herror⟩

/-- The duration is too large, and is reported although a denominator in front of it is zero. -/
theorem parse_refused_chord : ∃ t, Tree.parse "2*(<3/00 1>:99999999999999999999)" = .ok t ∧
    (∃ l message, t.Refuses l message) ∧
    ∃ e l, Piece.parse "2*(<3/00 1>:99999999999999999999)" = .error (.malformed e) ∧
      e.message = "integer is too large" ∧ e.offset = 12 ∧
      t.Refuses l e.message ∧ e.offset = l.start ∧ t.refusals.head? = some ⟨l, e.message⟩ := by
  have hok : (Tree.parse "2*(<3/00 1>:99999999999999999999)").isOk = true := by decide +kernel
  obtain ⟨t, ht⟩ := exists_eq_ok hok
  have hfails : Piece.parse "2*(<3/00 1>:99999999999999999999)" = .error (.malformed
      (.locate "2*(<3/00 1>:99999999999999999999)" 12 "integer is too large")) := by
    decide +kernel
  obtain ⟨hiff, hlocated⟩ := parse_refused_iff "2*(<3/00 1>:99999999999999999999)"
  obtain ⟨e, he⟩ | ⟨t', ht', hrefuses⟩ := hiff.mp ⟨_, hfails⟩
  · rw [ht] at he
    cases he
  · obtain rfl := Except.ok.inj (ht.symm.trans ht')
    obtain ⟨e, l, herror, hall⟩ := hlocated t ht hrefuses
    obtain rfl := Fault.malformed.inj (Except.error.inj (hfails.symm.trans herror))
    exact ⟨t, ht, hrefuses, _, l, herror, rfl, by decide +kernel, hall⟩

end JustIntonation.Notation
