/-
JustIntonation/Proofs/Music/Frequencies.lean

The frequencies of music.

They are listed in ascending order, each of them once.  Every sounding note
has its place in the list, and there is nothing else in it.  If the
frequencies of all notes are exact and not negative the list is one of
rationals, and then what is in it can be said without the order of numbers
(`Music.Exact.exists_frequencies`).
-/
import JustIntonation.Music.Measure
import JustIntonation.Proofs.Number.Order

namespace JustIntonation

/-! ### All frequencies -/

theorem Music.frequencies_ascending (music : Music) : Number.Ascending music.frequencies :=
  Number.distinct_ascending _

/-- Every sounding note has its place among the frequencies. -/
theorem Music.exists_mem_frequencies {music : Music} {n : Note} (hn : n ∈ music.notes)
    (hsounds : n.isRest = false) :
    ∃ f ∈ music.frequencies, f.place = n.frequency.value.place := by
  apply Number.exists_mem_distinct
  rw [List.mem_filter]
  refine ⟨List.mem_map_of_mem hn, ?_⟩
  simpa [Note.isRest] using hsounds

/-- Every frequency is that of a sounding note. -/
theorem Music.exists_note_of_mem_frequencies {music : Music} {f : Number}
    (hf : f ∈ music.frequencies) : ∃ n ∈ music.notes, n.isRest = false ∧ n.frequency.value = f := by
  obtain ⟨hmem, hsounds⟩ := List.mem_filter.mp (Number.mem_of_mem_distinct hf)
  obtain ⟨n, hn, rfl⟩ := List.mem_map.mp hmem
  exact ⟨n, hn, by simpa [Note.isRest] using hsounds, rfl⟩

/-! ### Exact frequencies -/

def Number.rational? : Number → Option ℚ
  | .exact q => some q
  | .approximate _ => none

theorem Number.rational?_eq_some {x : Number} {q : ℚ} : x.rational? = some q ↔ x = .exact q := by
  cases x with
  | exact r => simp [rational?]
  | approximate r => simp [rational?]

/-- Every frequency of the music is exact and not below zero. -/
def Music.Exact (music : Music) : Prop :=
  ∀ n ∈ music.notes, ∃ q : ℚ, 0 ≤ q ∧ n.frequency.value = .exact q

instance (music : Music) : Decidable music.Exact :=
  decidable_of_iff (∀ n ∈ music.notes, ∃ q ∈ n.frequency.value.rational?, 0 ≤ q) <| by
    simp only [Music.Exact, Option.mem_def, Number.rational?_eq_some, and_comm]

theorem Note.sounds_iff {n : Note} {q : ℚ} (h : n.frequency.value = .exact q) :
    n.isRest = false ↔ q ≠ 0 := by
  rw [isRest, h, Number.isZero, decide_eq_false_iff_not]

theorem exists_map_exact {xs : List Number} (h : ∀ x ∈ xs, ∃ q, x = .exact q) :
    ∃ qs : List ℚ, xs = qs.map .exact := by
  induction xs with
  | nil => exact ⟨[], rfl⟩
  | cons x xs ih =>
    obtain ⟨⟨q, rfl⟩, hxs⟩ := List.forall_mem_cons.mp h
    obtain ⟨qs, rfl⟩ := ih hxs
    exact ⟨q :: qs, rfl⟩

/-- The frequencies of exact music in ascending order, as rationals. -/
theorem Music.Exact.exists_frequencies {music : Music} (h : music.Exact) :
    ∃ qs : List ℚ, music.frequencies = qs.map .exact ∧ qs.Pairwise (· < ·) ∧
      ∀ q, q ∈ qs ↔ q ≠ 0 ∧ ∃ n ∈ music.notes, n.frequency.value = .exact q := by
  obtain ⟨qs, hqs⟩ : ∃ qs : List ℚ, music.frequencies = qs.map .exact := by
    apply exists_map_exact
    intro f hf
    obtain ⟨n, hn, -, rfl⟩ := exists_note_of_mem_frequencies hf
    obtain ⟨q, -, hq⟩ := h n hn
    exact ⟨q, hq⟩
  refine ⟨qs, hqs, ?_, fun q => ⟨?_, ?_⟩⟩
  · have hascending := frequencies_ascending music
    rw [hqs, Number.Ascending, List.pairwise_map] at hascending
    exact hascending.imp Number.place_exact_lt.mp
  · intro hq
    have hmem : Number.exact q ∈ music.frequencies := by
      rw [hqs]
      exact List.mem_map_of_mem hq
    obtain ⟨n, hn, hsounds, hvalue⟩ := exists_note_of_mem_frequencies hmem
    exact ⟨(Note.sounds_iff hvalue).mp hsounds, n, hn, hvalue⟩
  · rintro ⟨hne, n, hn, hvalue⟩
    have hsounds : n.isRest = false := (Note.sounds_iff hvalue).mpr hne
    -- Its frequency is listed by its place only, but among exact numbers that says all.
    obtain ⟨f, hf, hplace⟩ := exists_mem_frequencies hn hsounds
    rw [hqs] at hf
    obtain ⟨r, hr, rfl⟩ := List.mem_map.mp hf
    rw [hvalue, Number.place_exact_inj] at hplace
    rwa [← hplace]

end JustIntonation
