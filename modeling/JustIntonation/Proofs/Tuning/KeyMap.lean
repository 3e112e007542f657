/-
JustIntonation/Proofs/Tuning/KeyMap.lean

Maps from frequencies to keys.

A map that is filled in ascending order is the list it was filled from
(`ofList_of_ascending`), and what is looked up in it is found by its place in
the order of numbers (`find?_eq_some`).
-/
import JustIntonation.Proofs.Number.Order
import JustIntonation.Tuning.Keyboard

namespace JustIntonation.Tuning.KeyMap

/-- The frequencies of the map ascend. -/
def Ascending (map : KeyMap) : Prop := map.Pairwise fun a b => a.1.place < b.1.place

theorem insert_of_above {f : Number} {key : Nat} {map : KeyMap}
    (h : ∀ entry ∈ map, entry.1.place < f.place) : insert f key map = map ++ [(f, key)] := by
  induction map with
  | nil => rfl
  | cons entry map ih =>
    have hgt : f.compare entry.1 = .gt := Number.compare_eq_gt.mpr (h entry List.mem_cons_self)
    have hrest := ih fun e he => h e (List.mem_cons_of_mem entry he)
    rw [insert, hgt, hrest, List.cons_append]

/-- Filling a map in ascending order appends every entry. -/
theorem foldl_insert_of_ascending (entries : KeyMap) : ∀ {map : KeyMap},
    Ascending (map ++ entries) →
    entries.foldl (fun map (f, key) => insert f key map) map = map ++ entries := by
  induction entries with
  | nil => simp
  | cons entry entries ih =>
    obtain ⟨f, key⟩ := entry
    intro map h
    have habove : ∀ e ∈ map, e.1.place < f.place := by
      intro e he
      exact (List.pairwise_append.mp h).2.2 e he (f, key) List.mem_cons_self
    show entries.foldl _ (insert f key map) = map ++ (f, key) :: entries
    rw [insert_of_above habove, ih (by simpa [Ascending] using h)]
    simp

theorem ofList_of_ascending {entries : KeyMap} (h : Ascending entries) :
    ofList entries = entries := by
  simpa [ofList] using @foldl_insert_of_ascending entries [] (by simpa using h)

/-- What stands at the place of an entry is looked up as that entry. -/
theorem find?_eq_some {map : KeyMap} (h : Ascending map) {f g : Number} {key : Nat}
    (hmem : (f, key) ∈ map) (hplace : g.place = f.place) : find? map g = some key := by
  induction map with
  | nil => simp at hmem
  | cons entry map ih =>
    obtain ⟨habove, hmap⟩ := List.pairwise_cons.mp h
    obtain rfl | hmem := List.mem_cons.mp hmem
    · have hsame : g.same f = true := Number.same_iff.mpr hplace
      simp [find?, hsame]
    · -- No entry before it stands at the same place.
      have hne : g.same entry.1 = false := by
        rw [Bool.eq_false_iff]
        intro hsame
        exact (habove (f, key) hmem).ne ((Number.same_iff.mp hsame).symm.trans hplace)
      have hrest := ih hmap hmem
      rw [find?] at hrest ⊢
      rw [List.find?_cons_of_neg (by simp [hne]), hrest]

theorem mem_of_find?_eq_some {map : KeyMap} {g : Number} {key : Nat}
    (h : find? map g = some key) : ∃ f, (f, key) ∈ map ∧ g.place = f.place := by
  obtain ⟨⟨f, k⟩, hfind, rfl⟩ := Option.map_eq_some_iff.mp h
  have hsame := List.find?_some (p := fun entry : Number × Nat => g.same entry.1) hfind
  exact ⟨f, List.mem_of_find?_eq_some hfind, Number.same_iff.mp hsame⟩

end JustIntonation.Tuning.KeyMap
