/-
JustIntonation/Proofs/Toml/Tables.lean

The table that statements define.

Pairs under the root stand in the table in the order in which they are written
(`foldlM_pairs`).  Behind them the elements of one array may follow, each with
its header and pairs of its own; a header closes the element before it, so
after each element the array has all that were written so far
(`foldlM_elements`).

Main result: pairs and the elements of an array, with no key twice, are the
table that has these pairs and the array (`tableOfStatements_written`).
-/
import JustIntonation.Toml.Reader
import Mathlib.Data.List.Nodup

namespace JustIntonation.Toml

variable {key : String} {v : Value} {es : Entries} {pairs : List (String × Value)}

/-! ### Pairs -/

def pairStatement (p : String × Value) : Statement := .pair [p.1] p.2

/-- The entries that pairs make in a table under construction. -/
def pairEntries (pairs : List (String × Value)) : Entries := pairs.map fun p => (p.1, .value p.2)

/-- What is put under a new key stands behind the other entries. -/
theorem alter_of_not_mem {f : Option Draft → Option Draft} (h : key ∉ es.map Prod.fst) :
    es.alter f key = (f none).map fun d => es ++ [(key, d)] := by
  induction es with
  | nil => rfl
  | cons e es ih =>
    obtain ⟨hkey, hes⟩ := not_or.mp (mt List.mem_cons.mpr h)
    rw [Entries.alter, if_neg (Ne.symm hkey), ih hes, Option.map_map]
    rfl

/-- What stands under the last key is changed in its place. -/
theorem alter_append {f : Option Draft → Option Draft} {d : Draft} (h : key ∉ es.map Prod.fst) :
    Entries.alter f key (es ++ [(key, d)]) = (f (some d)).map fun d => es ++ [(key, d)] := by
  induction es with
  | nil =>
    rw [List.nil_append, Entries.alter, if_pos rfl]
    rfl
  | cons e es ih =>
    obtain ⟨hkey, hes⟩ := not_or.mp (mt List.mem_cons.mpr h)
    rw [List.cons_append, Entries.alter, if_neg (Ne.symm hkey), ih hes, Option.map_map]
    rfl

theorem assign_of_not_mem (h : key ∉ es.map Prod.fst) :
    Entries.assign v true [key] es = some (es ++ pairEntries [(key, v)]) := by
  rw [Entries.assign, alter_of_not_mem h]
  rfl

/-- A pair under the root. -/
theorem step_pair {p : String × Value} (h : p.1 ∉ es.map Prod.fst) :
    Progress.step ⟨[], es⟩ (pairStatement p) = some ⟨[], es ++ pairEntries [p]⟩ := by
  rw [pairStatement, Progress.step, Entries.within, assign_of_not_mem h]
  rfl

/-- A pair under the header of an element. -/
theorem step_pair_element {p : String × Value} {front : List Entries} {last : Entries}
    (hkey : key ∉ es.map Prod.fst) (h : p.1 ∉ last.map Prod.fst) :
    Progress.step ⟨[key], es ++ [(key, .tables front last)]⟩ (pairStatement p)
      = some ⟨[key], es ++ [(key, .tables front (last ++ pairEntries [p]))]⟩ := by
  rw [pairStatement, Progress.step, Entries.within, alter_append hkey]
  simp only [Entries.within, assign_of_not_mem h, Option.map_some]

/-- Pairs with different keys stand one behind the other where each of them is put. -/
theorem foldlM_pairs (place : Entries → Progress) (es : Entries)
    (hstep : ∀ es p, p.1 ∉ es.map Prod.fst →
      Progress.step (place es) (pairStatement p) = some (place (es ++ pairEntries [p])))
    (h : (es.map Prod.fst ++ pairs.map Prod.fst).Nodup) :
    (pairs.map pairStatement).foldlM Progress.step (place es)
      = some (place (es ++ pairEntries pairs)) := by
  induction pairs generalizing es with
  | nil => simp [pairEntries]
  | cons p pairs ih =>
    have hfirst : p.1 ∉ es.map Prod.fst := by
      intro hmem
      exact List.disjoint_of_nodup_append h hmem List.mem_cons_self
    have hrest : ((es ++ pairEntries [p]).map Prod.fst ++ pairs.map Prod.fst).Nodup := by
      simpa [pairEntries] using h
    rw [List.map_cons, List.foldlM_cons, hstep es p hfirst]
    refine (ih _ hrest).trans ?_
    simp [pairEntries]

/-! ### Elements of an array -/

/-- The elements of an array, each a header and its pairs. -/
def elementStatements (key : String) (elements : List (List (String × Value))) : List Statement :=
  elements.flatMap fun pairs => .element [key] :: pairs.map pairStatement

theorem step_element_first (hkey : key ∉ es.map Prod.fst) {header : List String} :
    Progress.step ⟨header, es⟩ (.element [key])
      = some ⟨[key], es ++ [(key, .tables [] [])]⟩ := by
  simp [Progress.step, Entries.within, Entries.openElement, alter_of_not_mem hkey]

theorem step_element (hkey : key ∉ es.map Prod.fst) {header : List String} {front : List Entries}
    {last : Entries} :
    Progress.step ⟨header, es ++ [(key, .tables front last)]⟩ (.element [key])
      = some ⟨[key], es ++ [(key, .tables (front ++ [last]) [])]⟩ := by
  simp [Progress.step, Entries.within, Entries.openElement, alter_append hkey]

/-- An element that was begun gets its pairs. -/
theorem foldlM_element_pairs (hkey : key ∉ es.map Prod.fst) (h : (pairs.map Prod.fst).Nodup)
    (front : List Entries) :
    (pairs.map pairStatement).foldlM Progress.step ⟨[key], es ++ [(key, .tables front [])]⟩
      = some ⟨[key], es ++ [(key, .tables front (pairEntries pairs))]⟩ :=
  foldlM_pairs (fun last => ⟨[key], es ++ [(key, .tables front last)]⟩) []
    (fun _ _ hp => step_pair_element hkey hp) h

/-- Each element is put behind those that were there. -/
theorem foldlM_elements {elements : List (List (String × Value))} (hkey : key ∉ es.map Prod.fst)
    (h : ∀ pairs ∈ elements, (pairs.map Prod.fst).Nodup) {front : List Entries} {last : Entries}
    {p : Progress} (hp : p.entries = es ++ [(key, .tables front last)]) :
    ∃ q front' last', (elementStatements key elements).foldlM Progress.step p = some q ∧
      q.entries = es ++ [(key, .tables front' last')] ∧
      front' ++ [last'] = front ++ [last] ++ elements.map pairEntries := by
  induction elements generalizing front last p with
  | nil => exact ⟨p, front, last, rfl, hp, (List.append_nil _).symm⟩
  | cons pairs elements ih =>
    obtain ⟨hpairs, helements⟩ := List.forall_mem_cons.mp h
    obtain ⟨q, front', last', hfold, hq, hall⟩ :=
      ih helements (p := ⟨[key], es ++ [(key, .tables (front ++ [last]) (pairEntries pairs))]⟩) rfl
    refine ⟨q, front', last', ?_, hq, ?_⟩
    · obtain ⟨header, entries⟩ := p
      obtain rfl : entries = _ := hp
      rw [elementStatements, List.flatMap_cons, List.cons_append, List.foldlM_cons,
        step_element hkey, Option.bind_eq_bind, Option.bind_some, List.foldlM_append,
        foldlM_element_pairs hkey hpairs]
      exact hfold
    · rw [hall]
      simp

/-! ### Finished tables -/

theorem finishEntries_append (es es' : Entries) :
    finishEntries (es ++ es') = finishEntries es ++ finishEntries es' := by
  induction es with
  | nil => rfl
  | cons e es ih => rw [List.cons_append, finishEntries, ih, finishEntries, List.cons_append]

theorem finishEntries_pairEntries (pairs : List (String × Value)) :
    finishEntries (pairEntries pairs) = pairs := by
  induction pairs with
  | nil => rfl
  | cons p pairs ih =>
    rw [pairEntries, List.map_cons, finishEntries, Draft.finish]
    exact congrArg (p :: ·) ih

theorem finishElements_eq_map (elements : List Entries) :
    finishElements elements = elements.map fun es => .table (finishEntries es) := by
  induction elements with
  | nil => rfl
  | cons es elements ih => rw [finishElements, ih, List.map_cons]

theorem finish_tables (front : List Entries) (last : Entries) :
    (Draft.tables front last).finish
      = .array ((front ++ [last]).map fun es => .table (finishEntries es)) := by
  rw [Draft.finish, finishElements_eq_map, List.map_append]
  rfl

/-- The table of pairs and the elements of an array, which is left out if there are none. -/
def written (pairs : List (String × Value)) (key : String)
    (elements : List (List (String × Value))) : Table :=
  pairs ++ if elements = [] then [] else [(key, .array (elements.map .table))]

/-- Pairs and elements are the table that has them, if no key occurs twice. -/
theorem tableOfStatements_written {elements : List (List (String × Value))}
    (hpairs : (pairs.map Prod.fst).Nodup) (hkey : key ∉ pairs.map Prod.fst)
    (helements : ∀ pairs ∈ elements, (pairs.map Prod.fst).Nodup) :
    tableOfStatements (pairs.map pairStatement ++ elementStatements key elements)
      = some (written pairs key elements) := by
  have hroot : (pairs.map pairStatement).foldlM Progress.step {}
      = some ⟨[], pairEntries pairs⟩ :=
    foldlM_pairs (fun es => ⟨[], es⟩) [] (fun _ _ hp => step_pair hp) hpairs
  have hnew : key ∉ (pairEntries pairs).map Prod.fst := by simpa [pairEntries] using hkey
  rw [tableOfStatements, List.foldlM_append, hroot]
  cases elements with
  | nil =>
    have hfinish := finishEntries_pairEntries pairs
    simp [elementStatements, written, Entries.finish, hfinish]
  | cons first elements =>
    obtain ⟨hfirst, hrest⟩ := List.forall_mem_cons.mp helements
    obtain ⟨q, front, last, hfold, hq, hall⟩ := foldlM_elements hnew hrest
      (p := ⟨[key], pairEntries pairs ++ [(key, .tables [] (pairEntries first))]⟩) rfl
    have helementsFold : (elementStatements key (first :: elements)).foldlM Progress.step
        ⟨[], pairEntries pairs⟩ = some q := by
      rw [elementStatements, List.flatMap_cons, List.cons_append, List.foldlM_cons,
        step_element_first hnew, Option.bind_eq_bind, Option.bind_some, List.foldlM_append,
        foldlM_element_pairs hnew hfirst]
      exact hfold
    have hfinish : q.entries.finish = written pairs key (first :: elements) := by
      rw [hq, Entries.finish, finishEntries_append, finishEntries_pairEntries, finishEntries,
        finish_tables, hall, finishEntries, written, if_neg (List.cons_ne_nil first elements)]
      simp [finishEntries_pairEntries]
    rw [Option.bind_eq_bind, Option.bind_some, helementsFold, Option.map_some, hfinish]

/-! ### Dates -/

theorem entriesWithDates_of_forall (h : ∀ p ∈ pairs, p.2.withDates = some p.2) :
    entriesWithDates pairs = some pairs := by
  induction pairs with
  | nil => rfl
  | cons p pairs ih =>
    obtain ⟨hp, hpairs⟩ := List.forall_mem_cons.mp h
    obtain ⟨key, v⟩ := p
    simp [entriesWithDates, hp, ih hpairs]

theorem itemsWithDates_of_forall {items : List Value}
    (h : ∀ v ∈ items, v.withDates = some v) : itemsWithDates items = some items := by
  induction items with
  | nil => rfl
  | cons v items ih =>
    obtain ⟨hv, hitems⟩ := List.forall_mem_cons.mp h
    simp [itemsWithDates, hv, ih hitems]

/-- A table stands for itself if its first key is not that of a date. -/
theorem withDates_table (h : ∀ p ∈ pairs, p.1 ≠ dateKey ∧ p.2.withDates = some p.2) :
    (Value.table pairs).withDates = some (.table pairs) := by
  cases pairs with
  | nil => rfl
  | cons p pairs =>
    obtain ⟨⟨hkey, hp⟩, hpairs⟩ := List.forall_mem_cons.mp h
    have hrest := entriesWithDates_of_forall fun q hq => (hpairs q hq).2
    obtain ⟨key, v⟩ := p
    simp [Value.withDates, if_neg hkey, hp, hrest]

theorem withDates_written {elements : List (List (String × Value))}
    (hpairs : ∀ p ∈ pairs, p.2.withDates = some p.2)
    (helements : ∀ pairs ∈ elements, ∀ p ∈ pairs, p.1 ≠ dateKey ∧ p.2.withDates = some p.2) :
    Table.withDates (written pairs key elements) = some (written pairs key elements) := by
  apply entriesWithDates_of_forall
  intro p hp
  rw [written, List.mem_append] at hp
  rcases hp with hp | hp
  · exact hpairs p hp
  · split_ifs at hp
    · cases hp
    · obtain rfl := List.mem_singleton.mp hp
      have hitems : itemsWithDates (elements.map .table) = some (elements.map .table) := by
        apply itemsWithDates_of_forall
        intro v hv
        obtain ⟨pairs, hmem, rfl⟩ := List.mem_map.mp hv
        exact withDates_table (helements pairs hmem)
      rw [Value.withDates, hitems]
      rfl

end JustIntonation.Toml
