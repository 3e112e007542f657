/-
JustIntonation/Proofs/Temperament.lean

Tempering to some number of divisions cannot fail (`Piece.exists_temper`), and
it leaves durations alone.
-/
import JustIntonation.Temperament
import JustIntonation.Proofs.Music.Traversal

namespace JustIntonation

theorem Note.exists_temper {divisions : Nat} (h : divisions ≠ 0) (n : Note) :
    ∃ n', n.temper divisions = .ok n' := by
  rw [Note.temper, if_neg h]
  split
  · exact ⟨_, rfl⟩
  · exact ⟨n, rfl⟩

theorem Note.duration_temper {divisions : Nat} {n n' : Note} (h : n.temper divisions = .ok n') :
    n'.duration = n.duration := by
  rw [Note.temper] at h
  split_ifs at h
  split at h
  · obtain rfl := Except.ok.inj h
    rfl
  · obtain rfl := Except.ok.inj h
    rfl

/-- A piece can be tempered, and in its events the notes still last equally long. -/
theorem Piece.exists_temper {divisions : Option Nat} (h : divisions ≠ some 0) {p : Piece}
    (hp : p.SharesDurations) :
    ∃ tempered, p.temper divisions = .ok tempered ∧ tempered.SharesDurations := by
  cases divisions with
  | none => exact ⟨p, rfl, hp⟩
  | some d =>
    have hd : d ≠ 0 := fun hd => h (congrArg some hd)
    obtain ⟨tempered, htempered⟩ := Piece.exists_mapNotes_eq_ok (p := p)
      fun n _ => Note.exists_temper hd n
    exact ⟨tempered, htempered, hp.mapNotes (fun _ _ => Note.duration_temper) htempered⟩

end JustIntonation
