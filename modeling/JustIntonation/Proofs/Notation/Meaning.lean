/-
JustIntonation/Proofs/Notation/Meaning.lean

What the reading of a text can end with.

Literals that cannot be evaluated are refused where they stand.  Beyond that
the operators put factors in front of quantities, which nothing but a tempered
power refuses; and there is none in music as it is written, not after any
number of operators (`Event.IsWritten`).  So a text is malformed, or it is a
piece (`yields_parse`), and in each event of the piece the notes last equally
long.
-/
import JustIntonation.Notation.Meaning
import JustIntonation.Proofs.Music.Traversal

namespace JustIntonation

/-! ### Results of reading -/

/-- A computation gives a value of some kind, or finds the text malformed. -/
inductive Yields {α : Type} (good : α → Prop) : Except Fault α → Prop
  | value {a : α} (holds : good a) : Yields good (.ok a)
  | malformed (e : Notation.SyntaxError) : Yields good (.error (.malformed e))

namespace Yields

variable {α β : Type} {good : α → Prop} {good' : β → Prop}

theorem bind {x : Except Fault α} {f : α → Except Fault β} (hx : Yields good x)
    (hf : ∀ a, good a → Yields good' (f a)) : Yields good' (x >>= f) := by
  cases hx with
  | value holds => exact hf _ holds
  | malformed e => exact .malformed e

theorem mapM {f : α → Except Fault β} {xs : List α} (h : ∀ x ∈ xs, Yields good' (f x)) :
    Yields (fun ys => ∀ y ∈ ys, good' y) (xs.mapM f) := by
  induction xs with
  | nil => exact .value nofun
  | cons x xs ih =>
    obtain ⟨hx, hxs⟩ := List.forall_mem_cons.mp h
    rw [List.mapM_cons]
    refine hx.bind fun y hy => (ih hxs).bind fun ys hys => .value ?_
    exact List.forall_mem_cons.mpr ⟨hy, hys⟩

end Yields

/-! ### Music as it is written -/

/-- Nothing in a quantity is left to evaluate to a double. -/
def Quantity.Untempered (q : Quantity) : Prop := ∀ p, q ≠ .power p

/-- Neither the pitch nor the volume of a note is tempered. -/
structure Note.Untempered (n : Note) : Prop where
  frequency : n.frequency.Untempered
  volume : n.volume.Untempered

/-- An event as it is written: no note is tempered, and all last equally long. -/
structure Event.IsWritten (e : Event) : Prop where
  untempered : ∀ n ∈ e.notes, n.Untempered
  shared : e.SharesDuration

theorem untempered_ratio (r : Ratio) : (Quantity.ratio r).Untempered := nofun

theorem untempered_product (p : Product) : (Quantity.product p).Untempered := nofun

/-- Factors can be put in front of what is not tempered. -/
theorem Quantity.Untempered.yields_scaled {q : Quantity} (h : q.Untempered) (factors : Product) :
    Yields Quantity.Untempered (q.scaled factors) := by
  cases q with
  | ratio r => exact .value (untempered_product _)
  | product p => exact .value (untempered_product _)
  | power p => exact absurd rfl (h p)

/-- Events stay as they are written if their notes do, with their durations. -/
theorem Event.IsWritten.yields_mapNotes {e : Event} (h : e.IsWritten)
    {f : Note → Except Fault Note}
    (hf : ∀ n ∈ e.notes, Yields (fun n' => n'.Untempered ∧ n'.duration = n.duration) (f n)) :
    Yields Event.IsWritten (e.mapNotes f) := by
  cases hmapped : e.mapNotes f with
  | error x =>
    obtain ⟨n, hn, hx⟩ := Event.exists_of_mapNotes_eq_error hmapped
    have hyields := hf n hn
    rw [hx] at hyields
    cases hyields
    exact .malformed _
  | ok e' =>
    have hnotes := Event.mapM_notes_of_mapNotes hmapped
    have hvalue : ∀ n ∈ e.notes, ∀ n', f n = .ok n' → n'.Untempered ∧ n'.duration = n.duration := by
      intro n hn n' hn'
      have hyields := hf n hn
      rw [hn'] at hyields
      cases hyields
      assumption
    refine .value ⟨fun n' hn' => ?_, ?_⟩
    · obtain ⟨n, hn, hfn⟩ := exists_of_mem_of_mapM_eq_ok hnotes hn'
      exact (hvalue n hn n' hfn).1
    · exact h.shared.mapNotes (fun n hn n' hn' => (hvalue n hn n' hn').2) hmapped

namespace Notation

variable (source : String)

/-! ### Literals -/

theorem yields_literal (l : Literal) : Yields (fun _ => True) (l.value source) := by
  rw [Literal.value]
  split_ifs
  · exact .value trivial
  · exact .malformed _

theorem yields_ratio (r : RatioLiteral) : Yields (fun _ => True) (r.value source) := by
  refine (yields_literal source r.numerator).bind fun n _ => ?_
  cases r.denominator with
  | none => exact .value trivial
  | some l =>
    refine (yields_literal source l).bind fun d _ => ?_
    split_ifs
    · exact .malformed _
    · exact .value trivial

theorem yields_product (p : ProductLiteral) : Yields (fun _ => True) (p.value source) :=
  (Yields.mapM fun r _ => yields_ratio source r).bind fun _ _ => .value trivial

theorem yields_volume (v : Option ProductLiteral) :
    Yields Quantity.Untempered (volumeOf source v) := by
  cases v with
  | none => exact .value (untempered_ratio _)
  | some p => exact (yields_product source p).bind fun _ _ => .value (untempered_product _)

/-! ### Expressions -/

theorem yields_scaleFrequency {n : Note} (h : n.Untempered) (factors : Product) :
    Yields (fun n' => n'.Untempered ∧ n'.duration = n.duration) (scaleFrequency factors n) :=
  (h.frequency.yields_scaled factors).bind fun _ hq => .value ⟨⟨hq, h.volume⟩, rfl⟩

theorem yields_scaleVolume {n : Note} (h : n.Untempered) (factors : Product) :
    Yields (fun n' => n'.Untempered ∧ n'.duration = n.duration) (scaleVolume factors n) :=
  (h.volume.yields_scaled factors).bind fun _ hq => .value ⟨⟨h.frequency, hq⟩, rfl⟩

/-- Every event of a sequence is as it is written. -/
def AllWritten (es : List Event) : Prop := ∀ e ∈ es, e.IsWritten

/-- An operator rebuilds written events from written events, if it does so note by note. -/
theorem yields_operator {events : Except Fault (List Event)} (h : Yields AllWritten events)
    (factor : ProductLiteral) {f : Product → Note → Except Fault Note}
    (hf : ∀ {n : Note}, n.Untempered → ∀ factors,
      Yields (fun n' => n'.Untempered ∧ n'.duration = n.duration) (f factors n)) :
    Yields AllWritten (do
      let factors ← factor.value source
      let es ← events
      es.mapM (Event.mapNotes (f factors))) :=
  (yields_product source factor).bind fun factors _ => h.bind fun _ hes =>
    .mapM fun e he => (hes e he).yields_mapNotes fun n hn => hf ((hes e he).untempered n hn) factors

theorem yields_note (frequency duration : ProductLiteral) (volume : Option ProductLiteral) :
    Yields AllWritten (Expr.events source (.note frequency duration volume)) := by
  rw [Expr.events]
  refine (yields_product source frequency).bind fun f _ =>
    (yields_product source duration).bind fun d _ =>
    (yields_volume source volume).bind fun v hv => .value ?_
  refine List.forall_mem_singleton.mpr ⟨?_, ?_⟩
  · exact List.forall_mem_singleton.mpr ⟨untempered_product f, hv⟩
  · rintro n hn m hm
    rw [List.mem_singleton.mp hn, List.mem_singleton.mp hm]

theorem yields_chord (frequencies : List ProductLiteral) (duration : ProductLiteral)
    (volume : Option ProductLiteral) :
    Yields AllWritten (Expr.events source (.chord frequencies duration volume)) := by
  rw [Expr.events]
  refine (yields_product source duration).bind fun d _ =>
    (yields_volume source volume).bind fun v hv => ?_
  -- The members differ in their frequencies only.
  have hmember : ∀ f ∈ frequencies, Yields (fun n => n.Untempered ∧ n.duration = .product d)
      (do return Note.mk (.product (← f.value source)) (.product d) v) := fun f _ =>
    (yields_product source f).bind fun p _ => .value ⟨⟨untempered_product p, hv⟩, rfl⟩
  refine (Yields.mapM hmember).bind fun notes hnotes => .value ?_
  refine List.forall_mem_singleton.mpr ⟨fun n hn => (hnotes n hn).1, fun n hn m hm => ?_⟩
  rw [(hnotes n hn).2, (hnotes m hm).2]

/-- The events of expressions, one by one and in sequence, are written ones. -/
theorem yields_events : (∀ expr : Expr, Yields AllWritten (expr.events source)) ∧
    ∀ items : List Expr, Yields AllWritten (Expr.sequenceEvents source items) := by
  apply Expr.events.mutual_induct
  case case1 => exact yields_note source
  case case2 => exact yields_chord source
  case case3 =>
    intro items ih
    rw [Expr.events]
    exact ih
  case case4 =>
    intro factor body ih
    rw [Expr.events]
    exact yields_operator source ih factor yields_scaleFrequency
  case case5 =>
    intro body factor ih
    rw [Expr.events]
    exact yields_operator source ih factor yields_scaleVolume
  case case6 =>
    rw [Expr.sequenceEvents]
    exact .value (List.forall_mem_nil _)
  case case7 =>
    intro item items ihItem ihItems
    rw [Expr.sequenceEvents]
    exact ihItem.bind fun first hfirst => ihItems.bind fun rest hrest =>
      .value (List.forall_mem_append.mpr ⟨hfirst, hrest⟩)

theorem yields_tree (tree : Tree) :
    Yields (fun p => ∀ part ∈ p.parts, AllWritten part.events) (tree.piece source) := by
  refine (Yields.mapM fun items _ => ?_).bind fun parts hparts => .value hparts
  exact ((yields_events source).2 items).bind fun events hevents => .value hevents

end Notation

/-- A text is malformed, or it is a piece of written events. -/
theorem yields_parse (source : String) :
    Yields (fun p => ∀ part ∈ p.parts, Notation.AllWritten part.events) (Piece.parse source) := by
  rw [Piece.parse]
  cases Notation.Tree.parse source with
  | ok tree => exact Notation.yields_tree source tree
  | error e => exact .malformed e

end JustIntonation
