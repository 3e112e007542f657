/-
JustIntonation/Proofs/Music/Laws.lean

The traversal of a piece by a function that carries a state and may fail.

The levels of a piece nest: parts, events, the notes of a chord.  Yet a
traversal is no more than the calls of its function along the notes in
document order (`VisitsNotes`).  That is so of a single note, and if it is so
of what stands in a list then of the list as well (`VisitsNotes.list`), so it
is so at every level.  Hence a traversal of a piece is all or nothing
(`Piece.Traversed`).

It also keeps the laws of traversals (`Piece.mapNotes_lawful`): to traverse
with `pure` changes nothing, and two traversals in turn are one.  That one
calls both functions at each note, and then makes the same piece
(`Piece.runFrom_andThen_mapNotes_eq_ok_iff`); or it lets the calls of the
second function wait, and then it is the same effect altogether
(`Piece.traverse_comp`).
-/
import JustIntonation.Proofs.Music.Shape
import JustIntonation.Proofs.Stateful
import Mathlib.Control.Traversable.Instances

namespace JustIntonation

open Stateful

variable {σ τ ε : Type}

/-! ### Notes in document order -/

section Visits

variable {α : Type} {f : Note → Stateful σ ε Note} {h : α → Stateful σ ε α} {notes : α → List Note}
  {same : α → α → Prop}

/-- What `h` does is to call `f` at the notes in their order: where all are answered, the answers
are the notes of something of the same shape, and where one is not, `h` fails like `f`. -/
structure VisitsNotes (f : Note → Stateful σ ε Note) (h : α → Stateful σ ε α)
    (notes : α → List Note) (same : α → α → Prop) : Prop where
  length_eq {x y : α} : same x y → (notes x).length = (notes y).length
  eq_ok_iff {x y : α} {s s' : σ} : runFrom (h x) s = (.ok y, s') ↔
    same x y ∧ Answers f s (notes x) (notes y) s'
  eq_error_iff {x : α} {e : ε} {s s' : σ} : runFrom (h x) s = (.error e, s') ↔
    Fails f s (notes x) e s'

/-- Whatever the answers are, they are put together. -/
theorem VisitsNotes.exists_of_answers (hv : VisitsNotes f h notes same) {x : α} {s s' : σ}
    {ns : List Note} (hns : Answers f s (notes x) ns s') :
    ∃ y, runFrom (h x) s = (.ok y, s') ∧ notes y = ns := by
  rcases hx : runFrom (h x) s with ⟨e | y, t⟩
  · exact absurd (hv.eq_error_iff.mp hx) hns.not_fails
  · obtain ⟨hy, rfl⟩ := (hv.eq_ok_iff.mp hx).2.unique hns
    exact ⟨y, rfl, hy⟩

theorem visitsNotes_note : VisitsNotes f f (fun n => [n]) fun _ _ => True where
  length_eq _ := rfl
  eq_ok_iff := by simp [answers_singleton]
  eq_error_iff := fails_singleton.symm

/-- A list is gone through member by member. -/
theorem VisitsNotes.list (hv : VisitsNotes f h notes same) :
    VisitsNotes f (fun xs : List α => xs.mapM h) (·.flatMap notes) (List.Forall₂ same) where
  length_eq hxs := by
    induction hxs with
    | nil => rfl
    | cons hx _ ih => simp only [List.flatMap_cons, List.length_append, hv.length_eq hx, ih]
  eq_ok_iff {xs ys s s'} := by
    induction xs generalizing ys s with
    | nil => cases ys <;> simp [eq_comm]
    | cons x xs ih =>
      rw [List.mapM_cons, List.flatMap_cons]
      constructor
      · intro hrun
        obtain ⟨y, t, hx, hrest⟩ := runFrom_bind_eq_ok.mp hrun
        obtain ⟨zs, hxs, rfl⟩ := runFrom_bind_pure_eq_ok.mp hrest
        obtain ⟨hsame, hcalls⟩ := hv.eq_ok_iff.mp hx
        obtain ⟨hsames, hcalls'⟩ := ih.mp hxs
        exact ⟨.cons hsame hsames, answers_append_iff.mpr ⟨_, _, t, rfl, hcalls, hcalls'⟩⟩
      · rintro ⟨hsames, hcalls⟩
        cases hsames with
        | cons hsame hsames =>
          obtain ⟨ns, ns', t, hsplit, hcalls, hcalls'⟩ := answers_append_iff.mp hcalls
          -- What is of the same shape has as many notes, so the answers part where the notes do.
          obtain ⟨rfl, rfl⟩ := List.append_inj hsplit
            ((hv.length_eq hsame).symm.trans hcalls.length_eq)
          refine runFrom_bind_eq_ok.mpr ⟨_, t, hv.eq_ok_iff.mpr ⟨hsame, hcalls⟩, ?_⟩
          exact runFrom_bind_pure_eq_ok.mpr ⟨_, ih.mpr ⟨hsames, hcalls'⟩, rfl⟩
  eq_error_iff {xs e s s'} := by
    induction xs generalizing s with
    | nil => simp [not_fails_nil]
    | cons x xs ih =>
      rw [List.mapM_cons, List.flatMap_cons, fails_append_iff, runFrom_bind_eq_error,
        hv.eq_error_iff]
      simp only [runFrom_bind_pure_eq_error, ih]
      refine or_congr_right ⟨?_, ?_⟩
      · rintro ⟨y, t, hx, hxs⟩
        exact ⟨notes y, t, (hv.eq_ok_iff.mp hx).2, hxs⟩
      · rintro ⟨ns, t, hns, hxs⟩
        obtain ⟨y, hx, -⟩ := hv.exists_of_answers hns
        exact ⟨y, t, hx, hxs⟩

/-- What is taken apart and put together again is gone through as what it is made of. -/
theorem VisitsNotes.rebuilt {β : Type} (hv : VisitsNotes f h notes same) (take : β → α)
    (build : α → β) (take_build : ∀ a, take (build a) = a) (build_take : ∀ b, build (take b) = b) :
    VisitsNotes f (fun b => h (take b) >>= fun a => pure (build a)) (fun b => notes (take b))
      fun b b' => same (take b) (take b') where
  length_eq := hv.length_eq
  eq_ok_iff {b b' s s'} := by
    rw [runFrom_bind_pure_eq_ok, ← hv.eq_ok_iff]
    constructor
    · rintro ⟨a, ha, rfl⟩
      rwa [take_build]
    · intro hb
      exact ⟨take b', hb, build_take b'⟩
  eq_error_iff := runFrom_bind_pure_eq_error.trans hv.eq_error_iff

end Visits

/-! ### The levels of a piece -/

section Levels

variable (f : Note → Stateful σ ε Note)

theorem visitsNotes_chord :
    VisitsNotes f (fun ns : List Note => ns.mapM f) (fun ns => ns)
      (List.Forall₂ fun _ _ => True) := by
  simpa using visitsNotes_note.list

theorem visitsNotes_event :
    VisitsNotes f (Event.mapNotes f) Event.notes (Event.SameShape fun _ _ => True) where
  length_eq hsame := hsame.alike.length_eq
  eq_ok_iff {e e' s s'} := by
    cases e with
    | note n =>
      rw [Event.mapNotes, runFrom_bind_pure_eq_ok]
      constructor
      · rintro ⟨n', hn, rfl⟩
        exact ⟨.note trivial, answers_singleton.mpr hn⟩
      · rintro ⟨hsame, hn⟩
        cases hsame with
        | note _ => exact ⟨_, answers_singleton.mp hn, rfl⟩
    | chord ns =>
      rw [Event.mapNotes, runFrom_bind_pure_eq_ok]
      constructor
      · rintro ⟨ns', hns, rfl⟩
        obtain ⟨hsame, hcalls⟩ := (visitsNotes_chord f).eq_ok_iff.mp hns
        exact ⟨.chord hsame, hcalls⟩
      · rintro ⟨hsame, hcalls⟩
        cases hsame with
        | chord hsame => exact ⟨_, (visitsNotes_chord f).eq_ok_iff.mpr ⟨hsame, hcalls⟩, rfl⟩
  eq_error_iff {e x s s'} := by
    cases e with
    | note n => exact runFrom_bind_pure_eq_error.trans fails_singleton.symm
    | chord ns => exact runFrom_bind_pure_eq_error.trans (visitsNotes_chord f).eq_error_iff

theorem visitsNotes_part :
    VisitsNotes f (Part.mapNotes f) (fun p => (Music.part p).notes)
      (Part.SameShape fun _ _ => True) :=
  (visitsNotes_event f).list.rebuilt Part.events Part.mk (fun _ => rfl) fun _ => rfl

theorem visitsNotes_piece :
    VisitsNotes f (Piece.mapNotes f) (fun p => (Music.piece p).notes)
      (Piece.SameShape fun _ _ => True) :=
  (visitsNotes_part f).list.rebuilt Piece.parts Piece.mk (fun _ => rfl) fun _ => rfl

end Levels

/-! ### All or nothing -/

/-- A traversal from its beginning to its end: the state that it starts from, the notes that its
function is called at, what becomes of the piece, and the state that is left. -/
inductive Piece.Traversed (f : Note → Stateful σ ε Note) (p : Piece) :
    σ → List Note → Except ε Piece → σ → Prop
  /-- Every note is answered, and the answers stand in the places of the notes. -/
  | every {s s' : σ} {p' : Piece} (shape : p.SameShape (fun _ _ => True) p')
      (answered : Answers f s (Music.piece p).notes (Music.piece p').notes s') :
      Traversed f p s (Music.piece p).notes (.ok p') s'
  /-- The first note that is not answered is the last one that is looked at. -/
  | failed {s t s' : σ} {before after answers : List Note} {n : Note} {e : ε}
      (split : (Music.piece p).notes = before ++ n :: after)
      (answered : Answers f s before answers t) (failure : runFrom (f n) t = (.error e, s')) :
      Traversed f p s (before ++ [n]) (.error e) s'

section AllOrNothing

variable {f : Note → Stateful σ ε Note} {p : Piece} {s s' : σ}

theorem Piece.traversed_ok_iff {called : List Note} {p' : Piece} :
    p.Traversed f s called (.ok p') s' ↔ p.SameShape (fun _ _ => True) p' ∧
      Answers f s (Music.piece p).notes (Music.piece p').notes s' ∧
      called = (Music.piece p).notes := by
  constructor
  · rintro ⟨shape, answered⟩
    exact ⟨shape, answered, rfl⟩
  · rintro ⟨shape, answered, rfl⟩
    exact .every shape answered

theorem Piece.traversed_error_iff {called : List Note} {e : ε} :
    p.Traversed f s called (.error e) s' ↔ ∃ before n after answers t,
      (Music.piece p).notes = before ++ n :: after ∧ Answers f s before answers t ∧
      runFrom (f n) t = (.error e, s') ∧ called = before ++ [n] := by
  constructor
  · rintro (_ | ⟨split, answered, failure⟩)
    exact ⟨_, _, _, _, _, split, answered, failure, rfl⟩
  · rintro ⟨before, n, after, answers, t, split, answered, failure, rfl⟩
    exact .failed split answered failure

/-- What a traversal calls its function at, and what comes of it. -/
theorem Piece.runFrom_mapNotes_recorded {called : List Note} {r : Except ε Piece} :
    runFrom (p.mapNotes (recorded f)) (s, []) = (r, (s', called)) ↔
      p.Traversed f s called r s' := by
  cases r with
  | ok p' =>
    rw [(visitsNotes_piece _).eq_ok_iff, answers_recorded, traversed_ok_iff, List.nil_append]
  | error e =>
    rw [(visitsNotes_piece _).eq_error_iff, fails_recorded, traversed_error_iff]
    simp only [List.nil_append]

/-- To keep a record of the calls makes no difference to what comes of them. -/
theorem Piece.runFrom_mapNotes {r : Except ε Piece} :
    runFrom (p.mapNotes f) s = (r, s') ↔ ∃ called, p.Traversed f s called r s' := by
  cases r with
  | ok p' =>
    simp only [(visitsNotes_piece f).eq_ok_iff, traversed_ok_iff, exists_and_left, exists_eq,
      and_true]
  | error e =>
    simp only [(visitsNotes_piece f).eq_error_iff, traversed_error_iff]
    constructor
    · rintro ⟨before, n, after, answers, t, split, answered, failure⟩
      exact ⟨_, before, n, after, answers, t, split, answered, failure, rfl⟩
    · rintro ⟨_, before, n, after, answers, t, split, answered, failure, -⟩
      exact ⟨before, n, after, answers, t, split, answered, failure⟩

/-- A traversal succeeds exactly if every note is answered. -/
theorem Piece.exists_runFrom_mapNotes_eq_ok_iff :
    (∃ p' s', runFrom (p.mapNotes f) s = (.ok p', s')) ↔
      ∃ answers s', Answers f s (Music.piece p).notes answers s' := by
  constructor
  · rintro ⟨p', s', hrun⟩
    exact ⟨_, s', ((visitsNotes_piece f).eq_ok_iff.mp hrun).2⟩
  · rintro ⟨answers, s', answered⟩
    obtain ⟨p', hrun, -⟩ := (visitsNotes_piece f).exists_of_answers answered
    exact ⟨p', s', hrun⟩

end AllOrNothing

/-! ### One traversal after another -/

section InTurn

variable {f : Note → Stateful σ ε Note} {g : Note → Stateful τ ε Note} {p p' : Piece} {s s' : σ}
  {t t' : τ}

theorem Piece.runFrom_mapNotes_andThen_of_ok
    (h : runFrom (andThen (Piece.mapNotes f) (Piece.mapNotes g) p) (s, t) = (.ok p', (s', t'))) :
    runFrom (p.mapNotes (andThen f g)) (s, t) = (.ok p', (s', t')) := by
  obtain ⟨q, hq, hp'⟩ := runFrom_andThen_eq_ok.mp h
  obtain ⟨hshape, hcalls⟩ := (visitsNotes_piece f).eq_ok_iff.mp hq
  obtain ⟨hshape', hcalls'⟩ := (visitsNotes_piece g).eq_ok_iff.mp hp'
  refine (visitsNotes_piece _).eq_ok_iff.mpr ⟨?_, answers_andThen.mpr ⟨_, hcalls, hcalls'⟩⟩
  exact (hshape.comp hshape').imp fun _ _ _ => trivial

/-- Two traversals in turn make of a piece what one traversal by both functions makes of it, and
leave the same states. -/
theorem Piece.runFrom_andThen_mapNotes_eq_ok_iff :
    runFrom (andThen (Piece.mapNotes f) (Piece.mapNotes g) p) (s, t) = (.ok p', (s', t')) ↔
      runFrom (p.mapNotes (andThen f g)) (s, t) = (.ok p', (s', t')) := by
  refine ⟨runFrom_mapNotes_andThen_of_ok, fun h => ?_⟩
  obtain ⟨-, hcalls⟩ := (visitsNotes_piece _).eq_ok_iff.mp h
  obtain ⟨ns, hns, hns'⟩ := answers_andThen.mp hcalls
  obtain ⟨q, hq, rfl⟩ := (visitsNotes_piece f).exists_of_answers hns
  obtain ⟨q', hq', -⟩ := (visitsNotes_piece g).exists_of_answers hns'
  -- The traversals in turn end somewhere, and so does the one by both functions.
  have hturn := runFrom_andThen_eq_ok.mpr ⟨q, hq, hq'⟩
  have hsame := (runFrom_mapNotes_andThen_of_ok hturn).symm.trans h
  rwa [hsame] at hturn

/-- Two traversals in turn end like one traversal by both functions, unless the first function
fails at a note and the second one at an earlier one. -/
theorem Piece.outcome_andThen_mapNotes (f : Note → Stateful σ ε Note)
    (g : Note → Stateful τ ε Note) (p : Piece) (s : σ) (t : τ) :
    (runFrom (andThen (Piece.mapNotes f) (Piece.mapNotes g) p) (s, t)).1 =
        (runFrom (p.mapNotes (andThen f g)) (s, t)).1 ∨
      Overtaken f g s t (Music.piece p).notes := by
  -- Where `f` answers everywhere `g` decides, and elsewhere `g` can only come before `f`.
  rcases answers_or_fails f s (Music.piece p).notes with ⟨ns, s', hns⟩ | ⟨e, s', hfails⟩
  · obtain ⟨q, hq, rfl⟩ := (visitsNotes_piece f).exists_of_answers hns
    rcases hq' : runFrom (q.mapNotes g) t with ⟨e | q', t'⟩
    · obtain ⟨u, hu⟩ := hns.fails_andThen ((visitsNotes_piece g).eq_error_iff.mp hq')
      have hturn := runFrom_andThen_eq_error.mpr (.inr ⟨q, hq, hq'⟩)
      exact .inl (by rw [hturn, (visitsNotes_piece _).eq_error_iff.mpr hu])
    · have hturn := runFrom_andThen_eq_ok.mpr ⟨q, hq, hq'⟩
      exact .inl (by rw [hturn, runFrom_mapNotes_andThen_of_ok hturn])
  · have hq := (visitsNotes_piece f).eq_error_iff.mpr hfails
    have hturn : runFrom (andThen (Piece.mapNotes f) (Piece.mapNotes g) p) (s, t) =
        (.error e, (s', t)) := runFrom_andThen_eq_error.mpr (.inl ⟨hq, rfl⟩)
    refine hfails.andThen_or_overtaken.imp_left fun ⟨t', hboth⟩ => ?_
    rw [hturn, (visitsNotes_piece _).eq_error_iff.mpr hboth]

-- Where both functions fail, the failures may differ.
example :
    let n := Note.rest .one
    let p : Piece := ⟨[⟨[.chord [n, n]]⟩]⟩
    let f : Note → Stateful ℕ String Note := fun n => ofRuns fun calls =>
      if calls = 1 then (.error "second call", calls) else (.ok n, calls + 1)
    let g : Note → Stateful Unit String Note := fun _ => throw "any call"
    (runFrom (andThen (Piece.mapNotes f) (Piece.mapNotes g) p) (0, ())).1 = .error "second call" ∧
      (runFrom (p.mapNotes (andThen f g)) (0, ())).1 = .error "any call" :=
  ⟨rfl, rfl⟩

end InTurn

/-! ### Traversals by any effect -/

section Effects

variable {F G : Type → Type} [Applicative F] [Applicative G]

def Event.traverse (f : Note → F Note) : Event → F Event
  | .note n => .note <$> f n
  | .chord notes => .chord <$> Traversable.traverse f notes

def Part.traverse (f : Note → F Note) (p : Part) : F Part :=
  .mk <$> Traversable.traverse (Event.traverse f) p.events

/-- The same traversal by any applicative effect, such as one effect within another. -/
def Piece.traverse (f : Note → F Note) (p : Piece) : F Piece :=
  .mk <$> Traversable.traverse (Part.traverse f) p.parts

theorem mapM_eq_traverse {m : Type → Type} [Monad m] [LawfulMonad m] {α β : Type} (f : α → m β)
    (xs : List α) : xs.mapM f = Traversable.traverse f xs := by
  induction xs with
  | nil => rfl
  | cons x xs ih =>
    rw [List.mapM_cons, ih, List.traverse_cons, seq_eq_bind_map]
    simp only [map_eq_pure_bind, bind_assoc, pure_bind]

section Monads

variable {m : Type → Type} [Monad m] [LawfulMonad m]

theorem Event.mapNotes_eq_traverse (f : Note → m Note) (e : Event) :
    e.mapNotes f = e.traverse f := by
  cases e with
  | note n => exact (map_eq_pure_bind _ _).symm
  | chord ns => rw [Event.mapNotes, Event.traverse, mapM_eq_traverse, map_eq_pure_bind]

theorem Part.mapNotes_eq_traverse (f : Note → m Note) (p : Part) :
    p.mapNotes f = p.traverse f := by
  rw [Part.mapNotes, Part.traverse, mapM_eq_traverse, funext (Event.mapNotes_eq_traverse f),
    map_eq_pure_bind]

theorem Piece.mapNotes_eq_traverse (f : Note → m Note) (p : Piece) :
    p.mapNotes f = p.traverse f := by
  rw [Piece.mapNotes, Piece.traverse, mapM_eq_traverse, funext (Part.mapNotes_eq_traverse f),
    map_eq_pure_bind]

theorem Event.mapNotes_pure (e : Event) : e.mapNotes (pure : Note → m Note) = pure e := by
  cases e with
  | note n => exact pure_bind _ _
  | chord ns => rw [Event.mapNotes, List.mapM_pure, List.map_id', pure_bind]

theorem Part.mapNotes_pure (p : Part) : p.mapNotes (pure : Note → m Note) = pure p := by
  rw [Part.mapNotes, funext Event.mapNotes_pure, List.mapM_pure, List.map_id', pure_bind]

theorem Piece.mapNotes_pure (p : Piece) : p.mapNotes (pure : Note → m Note) = pure p := by
  rw [Piece.mapNotes, funext Part.mapNotes_pure, List.mapM_pure, List.map_id', pure_bind]

end Monads

section Compositions

variable [LawfulApplicative F] [LawfulApplicative G] (f : Note → F Note) (g : Note → G Note)

open Functor (Comp)

theorem Event.traverse_comp (e : Event) :
    e.traverse (Comp.mk ∘ Functor.map g ∘ f) = Comp.mk (Event.traverse g <$> e.traverse f) := by
  cases e with
  | note n => simp only [Event.traverse, Function.comp_apply, Comp.map_mk, Functor.map_map]
  | chord ns =>
    simp only [Event.traverse, LawfulTraversable.comp_traverse, Comp.map_mk, Functor.map_map]

theorem Part.traverse_comp (p : Part) :
    p.traverse (Comp.mk ∘ Functor.map g ∘ f) = Comp.mk (Part.traverse g <$> p.traverse f) := by
  have hevent : Event.traverse (Comp.mk ∘ Functor.map g ∘ f) =
      Comp.mk ∘ Functor.map (Event.traverse g) ∘ Event.traverse f :=
    funext (Event.traverse_comp f g)
  simp only [Part.traverse, hevent, LawfulTraversable.comp_traverse, Comp.map_mk, Functor.map_map]

/-- A traversal by `g` of what a traversal by `f` makes is one traversal, in which the calls of `g`
wait for those of `f`. -/
theorem Piece.traverse_comp (p : Piece) :
    p.traverse (Comp.mk ∘ Functor.map g ∘ f) = Comp.mk (Piece.traverse g <$> p.traverse f) := by
  have hpart : Part.traverse (Comp.mk ∘ Functor.map g ∘ f) =
      Comp.mk ∘ Functor.map (Part.traverse g) ∘ Part.traverse f :=
    funext (Part.traverse_comp f g)
  simp only [Piece.traverse, hpart, LawfulTraversable.comp_traverse, Comp.map_mk, Functor.map_map]

end Compositions

end Effects

/-! ### The laws -/

open Functor (Comp) in
/-- A traversal of a piece is lawful, whatever its function carries and wherever it fails.  The
function is called at the notes in document order, once at each of them, up to the first failure.
That failure is the answer, or all the notes are answered, and then the answers stand in their
places.  Two traversals in turn make the same piece as one traversal by both functions, and also
fail alike unless the second function fails at an earlier note than the first; and if the calls of
the second function wait for those of the first, the two are one in any case.  A traversal by
`pure` changes nothing. -/
theorem Piece.mapNotes_lawful (p : Piece) (f : Note → Stateful σ ε Note)
    (g : Note → Stateful τ ε Note) :
    (∀ s r s', runFrom (p.mapNotes f) s = (r, s') ↔ ∃ called, p.Traversed f s called r s') ∧
    (∀ s called r s', runFrom (p.mapNotes (recorded f)) (s, []) = (r, (s', called)) ↔
      p.Traversed f s called r s') ∧
    (∀ s, (∃ p' s', runFrom (p.mapNotes f) s = (.ok p', s')) ↔
      ∃ answers s', Answers f s (Music.piece p).notes answers s') ∧
    (∀ s t p' s' t',
      runFrom (andThen (Piece.mapNotes f) (Piece.mapNotes g) p) (s, t) = (.ok p', (s', t')) ↔
        runFrom (p.mapNotes (andThen f g)) (s, t) = (.ok p', (s', t'))) ∧
    (∀ s t,
      (runFrom (andThen (Piece.mapNotes f) (Piece.mapNotes g) p) (s, t)).1 =
          (runFrom (p.mapNotes (andThen f g)) (s, t)).1 ∨
        Overtaken f g s t (Music.piece p).notes) ∧
    (p.mapNotes f = p.traverse f ∧
      Comp.mk (Piece.mapNotes g <$> p.mapNotes f) = p.traverse fun n => Comp.mk (g <$> f n)) ∧
    p.mapNotes (pure : Note → Stateful σ ε Note) = pure p := by
  refine ⟨fun _ _ _ => runFrom_mapNotes, fun _ _ _ _ => runFrom_mapNotes_recorded,
    fun _ => exists_runFrom_mapNotes_eq_ok_iff,
    fun _ _ _ _ _ => runFrom_andThen_mapNotes_eq_ok_iff, outcome_andThen_mapNotes f g p,
    ⟨mapNotes_eq_traverse f p, ?_⟩, mapNotes_pure p⟩
  rw [mapNotes_eq_traverse, funext (mapNotes_eq_traverse g)]
  exact (traverse_comp f g p).symm

end JustIntonation
