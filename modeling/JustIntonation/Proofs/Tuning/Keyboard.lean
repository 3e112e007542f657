/-
JustIntonation/Proofs/Tuning/Keyboard.lean

The keyboard of a piece.

The frequencies of music ascend, so the keys are given to them in order, none
is lost to the byte that a key is kept in (`keys_eq_zipIdx`), and every
sounding note has a key (`Music.exists_find?`).
-/
import JustIntonation.Proofs.Music.Frequencies
import JustIntonation.Proofs.Tuning.KeyMap

namespace JustIntonation

open Tuning

namespace Tuning.Keyboard

/-! ### Keys -/

theorem zipIdx_ascending {frequencies : List Number} (h : Number.Ascending frequencies) :
    KeyMap.Ascending frequencies.zipIdx := by
  have hmap : (frequencies.zipIdx.map Prod.fst).Pairwise fun a b => a.place < b.place := by
    rw [List.zipIdx_map_fst]
    exact h
  rw [List.pairwise_map] at hmap
  exact hmap

/-- The keys of a keyboard are the frequencies in their order, counted from zero. -/
theorem keys_eq_zipIdx {f0 : Binary64} {frequencies : List Number} {k : Keyboard}
    (hascending : Number.Ascending frequencies) (h : ofFrequencies f0 frequencies = .ok k) :
    frequencies.length ≤ keyCount ∧ k.keys = frequencies.zipIdx := by
  rw [ofFrequencies] at h
  split_ifs at h with hcount
  have hlength : frequencies.length ≤ keyCount := Nat.le_of_not_lt hcount
  have hbyte : ∀ entry ∈ frequencies.zipIdx, keyByte entry.2 = entry.2 := by
    intro entry hentry
    have hlt := List.snd_lt_of_mem_zipIdx hentry
    simp only [keyCount] at hlength
    exact Nat.mod_eq_of_lt (by omega)
  refine ⟨hlength, ?_⟩
  -- The keys are bytes already, so the map is filled with the indices themselves.
  rw [← Except.ok.inj h]
  show KeyMap.ofList (List.map _ _) = _
  rw [List.map_congr_left (g := id), List.map_id]
  · exact KeyMap.ofList_of_ascending (zipIdx_ascending hascending)
  · intro entry hentry
    exact Prod.ext rfl (hbyte entry hentry)

/-- What a keyboard finds is one of its keys. -/
theorem find?_lt {f0 : Binary64} {frequencies : List Number} {k : Keyboard}
    (hascending : Number.Ascending frequencies) (h : ofFrequencies f0 frequencies = .ok k)
    {f : Number} {key : Nat} (hfind : k.keys.find? f = some key) : key < keyCount := by
  obtain ⟨hlength, hkeys⟩ := keys_eq_zipIdx hascending h
  rw [hkeys] at hfind
  obtain ⟨g, hmem, -⟩ := KeyMap.mem_of_find?_eq_some hfind
  have hlt := List.snd_lt_of_mem_zipIdx hmem
  simp only at hlt
  omega

end Tuning.Keyboard

/-- Every sounding note has a key on the keyboard of the music it belongs to. -/
theorem Music.exists_find? {f0 : Binary64} {music : Music} {k : Keyboard}
    (h : music.keyboard f0 = .ok k) {n : Note} (hn : n ∈ music.notes)
    (hsounds : n.isRest = false) : ∃ key, k.keys.find? n.frequency.value = some key := by
  obtain ⟨f, hf, hplace⟩ := Music.exists_mem_frequencies hn hsounds
  obtain ⟨-, hkeys⟩ := Keyboard.keys_eq_zipIdx music.frequencies_ascending h
  obtain ⟨i, hi⟩ := List.mem_iff_getElem?.mp hf
  refine ⟨i, ?_⟩
  rw [hkeys]
  apply KeyMap.find?_eq_some (Keyboard.zipIdx_ascending music.frequencies_ascending) _ hplace.symm
  exact List.mk_mem_zipIdx_iff_getElem?.mpr hi

end JustIntonation
