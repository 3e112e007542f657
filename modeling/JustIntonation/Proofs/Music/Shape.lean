/-
JustIntonation/Proofs/Music/Shape.lean

Music of one shape, level by level.

A traversal rebuilds music with other notes in the old places.  That music is
of the same shape: as many parts, in each of them as many events, notes for
notes and chords for chords, each chord of its size (`Music.SameShape`).  The
places inside music are paths (`Music.node?`), and music of one shape has the
same paths with music of one shape at their ends
(`Music.SameShape.node?`).  So what holds of all music of one shape holds at
every place inside.
-/
import JustIntonation.Proofs.Music.Measure

namespace JustIntonation

/-! ### Places -/

/-- The music at the end of a path, which names a member on each level. -/
def Music.node? : Music → List ℕ → Option Music
  | music, [] => some music
  | music, i :: path => music.children[i]?.bind fun member => member.node? path

/-! ### Music of one shape -/

/-- Two notes that are related, or two chords of related notes. -/
inductive Event.SameShape (r : Note → Note → Prop) : Event → Event → Prop
  | note {n n' : Note} (h : r n n') : SameShape r (.note n) (.note n')
  | chord {ns ns' : List Note} (h : List.Forall₂ r ns ns') : SameShape r (.chord ns) (.chord ns')

def Part.SameShape (r : Note → Note → Prop) (p p' : Part) : Prop :=
  List.Forall₂ (Event.SameShape r) p.events p'.events

def Piece.SameShape (r : Note → Note → Prop) (p p' : Piece) : Prop :=
  List.Forall₂ (Part.SameShape r) p.parts p'.parts

/-- Music of one level and of one shape, whose notes are related one by one. -/
inductive Music.SameShape (r : Note → Note → Prop) : Music → Music → Prop
  | note {n n' : Note} (h : r n n') : SameShape r (.note n) (.note n')
  | chord {ns ns' : List Note} (h : List.Forall₂ r ns ns') : SameShape r (.chord ns) (.chord ns')
  | part {p p' : Part} (h : p.SameShape r p') : SameShape r (.part p) (.part p')
  | piece {p p' : Piece} (h : p.SameShape r p') : SameShape r (.piece p) (.piece p')

section Shape

variable {r s : Note → Note → Prop}

theorem Event.SameShape.imp {e e' : Event} (h : e.SameShape r e')
    (hrs : ∀ n n', r n n' → s n n') : e.SameShape s e' := by
  cases h with
  | note h => exact .note (hrs _ _ h)
  | chord h => exact .chord (h.imp hrs)

theorem Piece.SameShape.imp {p p' : Piece} (h : p.SameShape r p')
    (hrs : ∀ n n', r n n' → s n n') : p.SameShape s p' :=
  List.Forall₂.imp (fun _ _ => .imp fun _ _ he => he.imp hrs) h

theorem Event.SameShape.comp {e e' e'' : Event} (h : e.SameShape r e') (h' : e'.SameShape s e'') :
    e.SameShape (fun n n'' => ∃ n', r n n' ∧ s n' n'') e'' := by
  cases h with
  | note h =>
    cases h' with
    | note h' => exact .note ⟨_, h, h'⟩
  | chord h =>
    cases h' with
    | chord h' => exact .chord (forall₂_comp h h')

/-- Pieces of one shape, one after the other. -/
theorem Piece.SameShape.comp {p p' p'' : Piece} (h : p.SameShape r p') (h' : p'.SameShape s p'') :
    p.SameShape (fun n n'' => ∃ n', r n n' ∧ s n' n'') p'' := by
  refine (forall₂_comp h h').imp fun part part'' ⟨part', hpart, hpart'⟩ => ?_
  exact (forall₂_comp hpart hpart').imp fun e e'' ⟨e', he, he'⟩ => he.comp he'

theorem Event.SameShape.toMusic {e e' : Event} (h : e.SameShape r e') :
    e.toMusic.SameShape r e'.toMusic := by
  cases h with
  | note h => exact .note h
  | chord h => exact .chord h

/-- The members of music of one shape are of one shape, one by one. -/
theorem Music.SameShape.children {music music' : Music} (h : music.SameShape r music') :
    List.Forall₂ (SameShape r) music.children music'.children := by
  cases h with
  | note h => exact .nil
  | chord h =>
    apply List.forall₂_map_left_iff.mpr (List.forall₂_map_right_iff.mpr _)
    exact h.imp fun _ _ => .note
  | part h =>
    apply List.forall₂_map_left_iff.mpr (List.forall₂_map_right_iff.mpr _)
    exact List.Forall₂.imp (fun _ _ => Event.SameShape.toMusic) h
  | piece h =>
    apply List.forall₂_map_left_iff.mpr (List.forall₂_map_right_iff.mpr _)
    exact List.Forall₂.imp (fun _ _ => .part) h

theorem rel_getElem?_of_forall₂ {α β : Type} {t : α → β → Prop} {xs : List α} {ys : List β}
    (h : List.Forall₂ t xs ys) (i : ℕ) : Option.Rel t xs[i]? ys[i]? := by
  induction h generalizing i with
  | nil => exact .none
  | cons hx _ ih =>
    cases i with
    | zero => exact .some hx
    | succ i => exact ih i

/-- Music of one shape has the same paths, and at their ends music of one shape. -/
theorem Music.SameShape.node? {music music' : Music} (h : music.SameShape r music')
    (path : List ℕ) : Option.Rel (SameShape r) (music.node? path) (music'.node? path) := by
  induction path generalizing music music' with
  | nil => exact .some h
  | cons i path ih =>
    have hmembers := rel_getElem?_of_forall₂ h.children i
    rw [Music.node?, Music.node?]
    generalize music.children[i]? = member, music'.children[i]? = member' at hmembers
    cases hmembers with
    | none => exact .none
    | some hmember => exact ih hmember

/-! ### What music of one shape shares -/

theorem Event.SameShape.alike {e e' : Event} (h : e.SameShape r e') : e.Alike r e' := by
  cases h with
  | note h => exact .cons h .nil
  | chord h => exact h

theorem Part.SameShape.alike {p p' : Part} (h : p.SameShape r p') :
    List.Forall₂ (Event.Alike r) p.events p'.events :=
  List.Forall₂.imp (fun _ _ => Event.SameShape.alike) h

theorem Piece.SameShape.alike {p p' : Piece} (h : p.SameShape r p') : p.Alike r p' :=
  List.Forall₂.imp (fun _ _ => Part.SameShape.alike) h

theorem Music.SameShape.height_eq {music music' : Music} (h : music.SameShape r music') :
    music.height = music'.height := by
  cases h with
  | note h => rfl
  | chord h => exact h.length_eq
  | part h => exact Part.height_eq_of_alike h.alike
  | piece h => exact h.alike.height_eq

theorem Music.SameShape.totalDuration_eq {music music' : Music}
    (h : music.SameShape Note.SameDuration music') :
    music.totalDuration = music'.totalDuration := by
  cases h with
  | note h => exact h
  | chord h => exact (Event.SameShape.chord h).alike.totalDuration_eq
  | part h => exact Part.totalDuration_eq_of_alike h.alike
  | piece h => exact h.alike.totalDuration_eq

end Shape

/-! ### Traversals -/

section Traversal

variable {ε : Type} {f : Note → Except ε Note}

theorem Event.sameShape_mapNotes {e e' : Event} (h : e.mapNotes f = .ok e') :
    e.SameShape (fun n n' => f n = .ok n') e' := by
  cases e with
  | note n =>
    simp only [Event.mapNotes, bind_eq_ok, pure_eq_ok] at h
    obtain ⟨n', hn', rfl⟩ := h
    exact .note hn'
  | chord ns =>
    simp only [Event.mapNotes, bind_eq_ok, pure_eq_ok] at h
    obtain ⟨ns', hns', rfl⟩ := h
    exact .chord (mapM_eq_ok.mp hns')

/-- A traversal puts related notes in the places of the notes, and changes nothing else. -/
theorem Piece.sameShape_mapNotes {p p' : Piece} (h : p.mapNotes f = .ok p') :
    p.SameShape (fun n n' => f n = .ok n') p' := by
  simp only [Piece.mapNotes, bind_eq_ok, pure_eq_ok] at h
  obtain ⟨parts, hparts, rfl⟩ := h
  refine (mapM_eq_ok.mp hparts).imp fun part part' hpart => ?_
  simp only [Part.mapNotes, bind_eq_ok, pure_eq_ok] at hpart
  obtain ⟨events, hevents, rfl⟩ := hpart
  exact (mapM_eq_ok.mp hevents).imp fun e e' => Event.sameShape_mapNotes

theorem Event.mapNotes_eq_self {e : Event} (h : ∀ n ∈ e.notes, f n = .ok n) :
    e.mapNotes f = .ok e := by
  cases e with
  | note n => exact bind_eq_ok.mpr ⟨n, h n List.mem_cons_self, rfl⟩
  | chord ns => exact bind_eq_ok.mpr ⟨ns, mapM_eq_ok.mpr (List.forall₂_same.mpr h), rfl⟩

/-- A traversal that keeps every note keeps the piece. -/
theorem Piece.mapNotes_eq_self {p : Piece} (h : ∀ n ∈ (Music.piece p).notes, f n = .ok n) :
    p.mapNotes f = .ok p := by
  have hparts : ∀ part ∈ p.parts, part.mapNotes f = .ok part := by
    intro part hpart
    have hevents : ∀ e ∈ part.events, e.mapNotes f = .ok e := fun e he =>
      Event.mapNotes_eq_self fun n hn => h n (Piece.mem_notes hpart he hn)
    exact bind_eq_ok.mpr ⟨part.events, mapM_eq_ok.mpr (List.forall₂_same.mpr hevents), rfl⟩
  exact bind_eq_ok.mpr ⟨p.parts, mapM_eq_ok.mpr (List.forall₂_same.mpr hparts), rfl⟩

/-- A traversal that fails does so at one of the notes. -/
theorem Piece.exists_of_mapNotes_eq_error {p : Piece} {x : ε} (h : p.mapNotes f = .error x) :
    ∃ n ∈ (Music.piece p).notes, f n = .error x := by
  simp only [Piece.mapNotes, bind_eq_error, pure_ne_error, and_false, exists_false, or_false] at h
  obtain ⟨part, hpart, h⟩ := exists_of_mapM_eq_error h
  simp only [Part.mapNotes, bind_eq_error, pure_ne_error, and_false, exists_false, or_false] at h
  obtain ⟨e, he, h⟩ := exists_of_mapM_eq_error h
  obtain ⟨n, hn, h⟩ := Event.exists_of_mapNotes_eq_error h
  exact ⟨n, Piece.mem_notes hpart he hn, h⟩

end Traversal

end JustIntonation
