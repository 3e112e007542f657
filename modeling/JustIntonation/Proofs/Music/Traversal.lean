/-
JustIntonation/Proofs/Music/Traversal.lean

What becomes of a piece whose notes are rebuilt one by one.

A traversal fails only where it fails at a note, and notes that sound together
stay together.  So if it leaves durations alone, chords whose notes last
equally long stay such chords (`Piece.SharesDurations.mapNotes`).  More than
that, the shape of the whole piece stays, and every note becomes what the
function makes of it (`Piece.alike_mapNotes`).
-/
import JustIntonation.Music.Basic
import JustIntonation.Proofs.Except

namespace JustIntonation

variable {ε : Type} {f : Note → Except ε Note}

/-! ### Events -/

/-- The notes of an event last equally long. -/
def Event.SharesDuration (e : Event) : Prop :=
  ∀ n ∈ e.notes, ∀ m ∈ e.notes, n.duration = m.duration

theorem Event.mapM_notes_of_mapNotes {e e' : Event} (h : e.mapNotes f = .ok e') :
    e.notes.mapM f = .ok e'.notes := by
  cases e with
  | note n =>
    simp only [Event.mapNotes, bind_eq_ok, pure_eq_ok] at h
    obtain ⟨n', hn', rfl⟩ := h
    exact mapM_eq_ok.mpr (.cons hn' .nil)
  | chord notes =>
    simp only [Event.mapNotes, bind_eq_ok, pure_eq_ok] at h
    obtain ⟨notes', hnotes', rfl⟩ := h
    exact hnotes'

theorem Event.exists_of_mapNotes_eq_error {e : Event} {x : ε} (h : e.mapNotes f = .error x) :
    ∃ n ∈ e.notes, f n = .error x := by
  cases e with
  | note n =>
    simp only [Event.mapNotes, bind_eq_error, pure_ne_error, and_false, exists_false, or_false] at h
    exact ⟨n, List.mem_cons_self, h⟩
  | chord notes =>
    simp only [Event.mapNotes, bind_eq_error, pure_ne_error, and_false, exists_false, or_false] at h
    exact exists_of_mapM_eq_error h

theorem Event.exists_mapNotes_eq_ok {e : Event} (h : ∀ n ∈ e.notes, ∃ n', f n = .ok n') :
    ∃ e', e.mapNotes f = .ok e' := by
  cases hmapped : e.mapNotes f with
  | ok e' => exact ⟨e', rfl⟩
  | error x =>
    obtain ⟨n, hn, herror⟩ := Event.exists_of_mapNotes_eq_error hmapped
    obtain ⟨n', hn'⟩ := h n hn
    rw [hn'] at herror
    cases herror

theorem Event.SharesDuration.mapNotes {e e' : Event} (h : e.SharesDuration)
    (hf : ∀ n ∈ e.notes, ∀ n', f n = .ok n' → n'.duration = n.duration)
    (he : e.mapNotes f = .ok e') : e'.SharesDuration := by
  intro n' hn' m' hm'
  have hnotes := Event.mapM_notes_of_mapNotes he
  obtain ⟨n, hn, hfn⟩ := exists_of_mem_of_mapM_eq_ok hnotes hn'
  obtain ⟨m, hm, hfm⟩ := exists_of_mem_of_mapM_eq_ok hnotes hm'
  rw [hf n hn n' hfn, hf m hm m' hfm]
  exact h n hn m hm

/-! ### Pieces -/

theorem Piece.mem_notes {piece : Piece} {p : Part} {e : Event} {n : Note} (hp : p ∈ piece.parts)
    (he : e ∈ p.events) (hn : n ∈ e.notes) : n ∈ (Music.piece piece).notes :=
  List.mem_flatMap.mpr ⟨p, hp, List.mem_flatMap.mpr ⟨e, he, hn⟩⟩

/-- In every event of a piece the notes last equally long. -/
def Piece.SharesDurations (p : Piece) : Prop :=
  ∀ part ∈ p.parts, ∀ e ∈ part.events, e.SharesDuration

theorem Piece.exists_mapNotes_eq_ok {p : Piece}
    (h : ∀ n ∈ (Music.piece p).notes, ∃ n', f n = .ok n') : ∃ p', p.mapNotes f = .ok p' := by
  have hparts : ∀ part ∈ p.parts, ∃ part', part.mapNotes f = .ok part' := by
    intro part hpart
    have hevent : ∀ e ∈ part.events, ∃ e', e.mapNotes f = .ok e' := fun e he =>
      Event.exists_mapNotes_eq_ok fun n hn => h n (Piece.mem_notes hpart he hn)
    obtain ⟨events, hevents⟩ := exists_mapM_eq_ok hevent
    exact ⟨⟨events⟩, bind_eq_ok.mpr ⟨events, hevents, rfl⟩⟩
  obtain ⟨parts, hparts'⟩ := exists_mapM_eq_ok hparts
  exact ⟨⟨parts⟩, bind_eq_ok.mpr ⟨parts, hparts', rfl⟩⟩

theorem Piece.SharesDurations.mapNotes {p p' : Piece} (h : p.SharesDurations)
    (hf : ∀ n n', f n = .ok n' → n'.duration = n.duration) (hp : p.mapNotes f = .ok p') :
    p'.SharesDurations := by
  intro part' hpart' e' he'
  simp only [Piece.mapNotes, bind_eq_ok, pure_eq_ok] at hp
  obtain ⟨parts, hparts, rfl⟩ := hp
  obtain ⟨part, hpart, hmapped⟩ := exists_of_mem_of_mapM_eq_ok hparts hpart'
  simp only [Part.mapNotes, bind_eq_ok, pure_eq_ok] at hmapped
  obtain ⟨events, hevents, rfl⟩ := hmapped
  obtain ⟨e, he, hevent⟩ := exists_of_mem_of_mapM_eq_ok hevents he'
  exact (h part hpart e he).mapNotes (fun n _ n' hn' => hf n n' hn') hevent

/-! ### Pieces of one shape -/

/-- Events with as many notes, related one by one. -/
def Event.Alike (r : Note → Note → Prop) (e e' : Event) : Prop := List.Forall₂ r e.notes e'.notes

/-- Pieces of one shape, whose notes are related one by one. -/
def Piece.Alike (r : Note → Note → Prop) (p p' : Piece) : Prop :=
  List.Forall₂ (fun part part' => List.Forall₂ (Event.Alike r) part.events part'.events)
    p.parts p'.parts

section Alike

variable {r s : Note → Note → Prop} {p p' : Piece}

theorem Piece.Alike.imp (h : p.Alike r p') (hrs : ∀ n n', r n n' → s n n') : p.Alike s p' :=
  List.Forall₂.imp (fun _ _ => .imp fun _ _ => .imp fun _ _ => hrs _ _) h

theorem Piece.Alike.length_eq (h : p.Alike r p') : p.parts.length = p'.parts.length :=
  List.Forall₂.length_eq h

/-- The notes of pieces of one shape, in document order. -/
theorem Piece.Alike.forall₂_notes (h : p.Alike r p') :
    List.Forall₂ r (Music.piece p).notes (Music.piece p').notes :=
  List.rel_flatMap h fun _ _ hpart => List.rel_flatMap hpart fun _ _ hevent => hevent

theorem Piece.Alike.exists_left (h : p.Alike r p') {n' : Note}
    (hn' : n' ∈ (Music.piece p').notes) : ∃ n ∈ (Music.piece p).notes, r n n' :=
  exists_of_mem_of_forall₂ h.forall₂_notes hn'

theorem Piece.Alike.exists_right (h : p.Alike r p') {n : Note}
    (hn : n ∈ (Music.piece p).notes) : ∃ n' ∈ (Music.piece p').notes, r n n' :=
  exists_of_mem_of_forall₂ h.forall₂_notes.flip hn

/-- The notes that are related are notes of the pieces. -/
theorem Piece.Alike.and_mem (h : p.Alike r p') :
    p.Alike (fun n n' => n ∈ (Music.piece p).notes ∧ r n n') p' := by
  have hall : ∀ part ∈ p.parts, ∀ e ∈ part.events, ∀ n ∈ e.notes,
      n ∈ (Music.piece p).notes := fun _ hpart _ he _ hn => Piece.mem_notes hpart he hn
  refine ((List.forall₂_and_left _ _).mpr ⟨hall, h⟩).imp fun part part' ⟨hpart, hevents⟩ => ?_
  refine ((List.forall₂_and_left _ _).mpr ⟨hpart, hevents⟩).imp fun e e' ⟨he, hnotes⟩ => ?_
  exact (List.forall₂_and_left _ _).mpr ⟨he, hnotes⟩

/-- Pieces of one shape, one after the other. -/
theorem Piece.Alike.comp {p'' : Piece} (h : p.Alike r p') (h' : p'.Alike s p'') :
    p.Alike (fun n n'' => ∃ n', r n n' ∧ s n' n'') p'' := by
  refine (forall₂_comp h h').imp fun part part'' ⟨part', hpart, hpart'⟩ => ?_
  refine (forall₂_comp hpart hpart').imp fun e e'' ⟨e', he, he'⟩ => ?_
  exact forall₂_comp he he'

/-- A traversal keeps the shape of the piece. -/
theorem Piece.alike_mapNotes (h : p.mapNotes f = .ok p') :
    p.Alike (fun n n' => f n = .ok n') p' := by
  simp only [Piece.mapNotes, bind_eq_ok, pure_eq_ok] at h
  obtain ⟨parts, hparts, rfl⟩ := h
  refine (mapM_eq_ok.mp hparts).imp fun part part' hpart => ?_
  simp only [Part.mapNotes, bind_eq_ok, pure_eq_ok] at hpart
  obtain ⟨events, hevents, rfl⟩ := hpart
  exact (mapM_eq_ok.mp hevents).imp fun e e' he =>
    mapM_eq_ok.mp (Event.mapM_notes_of_mapNotes he)

/-- A traversal that succeeds at every note, with what it makes of each of them. -/
theorem Piece.exists_alike (h : ∀ n ∈ (Music.piece p).notes, ∃ m, f n = .ok m ∧ r n m) :
    ∃ p', p.mapNotes f = .ok p' ∧ p.Alike r p' := by
  obtain ⟨p', hp'⟩ := Piece.exists_mapNotes_eq_ok fun n hn => (h n hn).imp fun _ hm => hm.1
  refine ⟨p', hp', (Piece.alike_mapNotes hp').and_mem.imp fun n m' ⟨hn, hm'⟩ => ?_⟩
  obtain ⟨m, hm, hr⟩ := h n hn
  obtain rfl := Except.ok.inj (hm.symm.trans hm')
  exact hr

end Alike

end JustIntonation
