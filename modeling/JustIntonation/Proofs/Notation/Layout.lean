/-
JustIntonation/Proofs/Notation/Layout.lean

The texts of a syntax tree.

A tree determines the order of its digits and signs but not the white space
between them, so it has many texts.  `Expr.Written e cs` and
`Tree.Written t cs` say that `cs` is one of them: they follow the grammar
from the tree to the text and know nothing of the parser, of its order of
choices or of how far it reads.

Not every tree has a text that means it: `3/2*1:1` is a note with the
frequency `3/2*1` and not a multiplied note.  The trees that have one are
called canonical (`Tree.Canonical`).  Two trees are the same up to the places
of their integers if they are equal when these are left out (`Tree.bare`).
-/
import JustIntonation.Notation.Parser
import Mathlib.Data.List.Forall2

namespace JustIntonation.Notation

/-! ### Characters -/

theorem isSpace_iff {c : Char} :
    Parser.isSpace c = true ↔ c = ' ' ∨ c = '\t' ∨ c = '\r' ∨ c = '\n' := by
  simp [Parser.isSpace, or_assoc]

theorem isSpace_eq_false_of_isDigit {c : Char} (h : c.isDigit = true) :
    Parser.isSpace c = false := by
  rw [Bool.eq_false_iff]
  intro hspace
  rcases isSpace_iff.mp hspace with rfl | rfl | rfl | rfl
  all_goals cases h

/-! ### Without places -/

/-- An integer without its place in the text. -/
def Literal.bare (l : Literal) : Literal := { l with start := 0, stop := 0 }

def RatioLiteral.bare (r : RatioLiteral) : RatioLiteral :=
  ⟨r.numerator.bare, r.denominator.map Literal.bare⟩

def ProductLiteral.bare (p : ProductLiteral) : ProductLiteral := ⟨p.ratios.map RatioLiteral.bare⟩

mutual

def Expr.bare : Expr → Expr
  | .note frequency duration volume =>
    .note frequency.bare duration.bare (volume.map ProductLiteral.bare)
  | .chord frequencies duration volume =>
    .chord (frequencies.map ProductLiteral.bare) duration.bare (volume.map ProductLiteral.bare)
  | .group items => .group (Expr.bareItems items)
  | .multiply factor body => .multiply factor.bare body.bare
  | .amplify body factor => .amplify body.bare factor.bare

def Expr.bareItems : List Expr → List Expr
  | [] => []
  | item :: items => item.bare :: Expr.bareItems items

end

def Tree.bare (t : Tree) : Tree := ⟨t.parts.map Expr.bareItems⟩

theorem Expr.bareItems_eq_map (items : List Expr) : Expr.bareItems items = items.map Expr.bare := by
  induction items with
  | nil => rfl
  | cons item items ih => rw [Expr.bareItems, ih, List.map_cons]

/-! ### Canonical trees -/

/-- The text of an integer is digits, at least one. -/
def Literal.Canonical (l : Literal) : Prop :=
  l.text.toList ≠ [] ∧ ∀ c ∈ l.text.toList, c.isDigit = true

def RatioLiteral.Canonical (r : RatioLiteral) : Prop :=
  r.numerator.Canonical ∧ ∀ d ∈ r.denominator, d.Canonical

def ProductLiteral.Canonical (p : ProductLiteral) : Prop :=
  p.ratios ≠ [] ∧ ∀ r ∈ p.ratios, r.Canonical

instance (l : Literal) : Decidable l.Canonical :=
  decidable_of_iff (l.text.toList ≠ [] ∧ l.text.toList.all Char.isDigit = true) <| by
    rw [Literal.Canonical, List.all_eq_true]

instance (r : RatioLiteral) : Decidable r.Canonical := inferInstanceAs (Decidable (_ ∧ _))

instance (p : ProductLiteral) : Decidable p.Canonical := inferInstanceAs (Decidable (_ ∧ _))

/-- Whether an expression is a chord or a group, with volume factors or not. -/
def Expr.isBracketed : Expr → Bool
  | .chord .. | .group _ => true
  | .amplify body _ => body.isBracketed
  | .note .. | .multiply .. => false

def Expr.isMultiply : Expr → Bool
  | .multiply .. => true
  | _ => false

/-- An expression that some text means: only chords and groups are multiplied, and what is
multiplied is not amplified as a whole. -/
inductive Expr.Canonical : Expr → Prop
  | note {f d v} (frequency : f.Canonical) (duration : d.Canonical)
      (volume : ∀ p ∈ v, p.Canonical) : Canonical (.note f d v)
  | chord {fs d v} (frequencies : ∀ f ∈ fs, f.Canonical) (duration : d.Canonical)
      (volume : ∀ p ∈ v, p.Canonical) : Canonical (.chord fs d v)
  | group {es} (items : ∀ e ∈ es, Canonical e) : Canonical (.group es)
  | multiply {f e} (factor : f.Canonical) (bracketed : e.isBracketed = true)
      (body : Canonical e) : Canonical (.multiply f e)
  | amplify {e f} (single : e.isMultiply = false) (body : Canonical e) (factor : f.Canonical) :
      Canonical (.amplify e f)

structure Tree.Canonical (t : Tree) : Prop where
  nonempty : t.parts ≠ []
  items : ∀ part ∈ t.parts, ∀ e ∈ part, e.Canonical

/-! ### Texts -/

def Literal.chars (l : Literal) : List Char := l.text.toList

/-- `n` or `n/d` -/
def RatioLiteral.chars (r : RatioLiteral) : List Char :=
  match r.denominator with
  | none => r.numerator.chars
  | some d => r.numerator.chars ++ '/' :: d.chars

/-- Ratios joined by `*`. -/
def ProductLiteral.chars (p : ProductLiteral) : List Char :=
  ['*'].intercalate (p.ratios.map RatioLiteral.chars)

/-- Texts joined by a sign: the first, and the sign before each other. -/
theorem intercalate_cons (x : Char) (first : List Char) (others : List (List Char)) :
    [x].intercalate (first :: others) = first ++ others.flatMap (x :: ·) := by
  induction others generalizing first with
  | nil => simp [List.intercalate]
  | cons second others ih =>
    rw [List.flatMap_cons, List.intercalate_cons_cons, ih, List.cons_append, List.append_assoc]
    rfl

/-- `:v` or nothing -/
def volumeChars : Option ProductLiteral → List Char
  | none => []
  | some v => ':' :: v.chars

/-- A run of white space. -/
def Blank (cs : List Char) : Prop := ∀ c ∈ cs, c = ' ' ∨ c = '\t' ∨ c = '\r' ∨ c = '\n'

/-- Texts of some things one behind the other, with white space behind each and at least some of
it between two. -/
inductive Spread {α : Type} (written : α → List Char → Prop) : List α → List Char → Prop
  | nil : Spread written [] []
  | last {x cs blank} (first : written x cs) (space : Blank blank) :
      Spread written [x] (cs ++ blank)
  | cons {x y xs cs blank rest} (first : written x cs) (space : Blank blank)
      (gap : blank ≠ []) (others : Spread written (y :: xs) rest) :
      Spread written (x :: y :: xs) (cs ++ (blank ++ rest))

/-- The texts of an expression. -/
inductive Expr.Written : Expr → List Char → Prop
  | note {f d v} : Written (.note f d v) (f.chars ++ ':' :: (d.chars ++ volumeChars v))
  | chord {fs d v blank cs} (space : Blank blank)
      (frequencies : Spread (fun (f : ProductLiteral) cs => cs = f.chars) fs cs) :
      Written (.chord fs d v) ('<' :: (blank ++ (cs ++ '>' :: ':' :: (d.chars ++ volumeChars v))))
  | group {es blank cs} (space : Blank blank) (items : Spread Written es cs) :
      Written (.group es) ('(' :: (blank ++ (cs ++ [')'])))
  | multiply {f e cs} (body : Written e cs) : Written (.multiply f e) (f.chars ++ '*' :: cs)
  | amplify {e f cs} (body : Written e cs) :
      Written (.amplify e f) (cs ++ '*' :: '*' :: f.chars)

/-- The texts of a part. -/
def WrittenPart (items : List Expr) (cs : List Char) : Prop :=
  ∃ blank text, Blank blank ∧ Spread Expr.Written items text ∧ cs = blank ++ text

/-- The texts of a tree: its parts joined by `;`. -/
def Tree.Written (t : Tree) (cs : List Char) : Prop :=
  ∃ texts, List.Forall₂ WrittenPart t.parts texts ∧ cs = [';'].intercalate texts

end JustIntonation.Notation
