/-
JustIntonation/Proofs/Tuning/Retuning.lean

A retuned keyboard reproduces exact frequencies exactly.

For a piece whose frequencies are exact and not negative the pitches are
rationals, so they can be spoken of without the order of the program: a
finite set (`Piece.pitches`).  The frequencies that the keyboard is made for
are that set in ascending order (`exists_frequencies`), and scale, keys and
mapping are all made from that one list; so key, entry and degree of a pitch
agree (`degree_eq`).

Main result: with at most 128 pitches every note has a key of its own pitch,
and the degree that the mapping gives the key is, times the lowest pitch, the
frequency of the note (`MadeOf.reproduces`).
-/
import JustIntonation.Proofs.Tuning.Keyboard
import JustIntonation.Proofs.Tuning.MappingFile
import Mathlib.Data.Finset.Card
import Mathlib.Data.Finset.Image
import Mathlib.Data.List.Nodup
import Mathlib.Data.Set.Function
import Mathlib.Order.Interval.Set.Defs
import Mathlib.Tactic.FieldSimp

namespace JustIntonation

open Tuning

/-! ### Pitches -/

/-- Every frequency of the piece is exact and not below zero. -/
def Piece.Exact (p : Piece) : Prop :=
  ∀ n ∈ (Music.piece p).notes, ∃ q : ℚ, 0 ≤ q ∧ n.frequency.value = .exact q

/-- The distinct frequencies of a piece other than zero, those that are exact. -/
def Piece.pitches (p : Piece) : Finset ℚ :=
  ((Music.piece p).notes.filterMap fun n => n.frequency.value.rational?).toFinset.erase 0

instance (p : Piece) : Decidable p.Exact := inferInstanceAs (Decidable (Music.piece p).Exact)

theorem Piece.mem_pitches {p : Piece} {q : ℚ} :
    q ∈ p.pitches ↔ q ≠ 0 ∧ ∃ n ∈ (Music.piece p).notes, n.frequency.value = .exact q := by
  rw [pitches, Finset.mem_erase, List.mem_toFinset, List.mem_filterMap]
  simp only [Number.rational?_eq_some]

/-- A sounding note of an exact piece has one of its pitches. -/
theorem Piece.Exact.exists_mem_pitches {p : Piece} (h : p.Exact) {n : Note}
    (hn : n ∈ (Music.piece p).notes) (hsounds : n.isRest = false) :
    ∃ q ∈ p.pitches, n.frequency.value = .exact q := by
  obtain ⟨q, -, hq⟩ := h n hn
  exact ⟨q, mem_pitches.mpr ⟨(Note.sounds_iff hq).mp hsounds, n, hn, hq⟩, hq⟩

theorem Piece.Exact.pos_of_mem_pitches {p : Piece} (h : p.Exact) {q : ℚ} (hq : q ∈ p.pitches) :
    0 < q := by
  obtain ⟨hne, n, hn, hvalue⟩ := mem_pitches.mp hq
  obtain ⟨r, hr, hvalue'⟩ := h n hn
  obtain rfl := Number.exact.inj (hvalue.symm.trans hvalue')
  exact lt_of_le_of_ne hr hne.symm

/-- The frequencies of an exact piece are its pitches in ascending order. -/
theorem Piece.Exact.exists_frequencies {p : Piece} (h : p.Exact) :
    ∃ qs : List ℚ, (Music.piece p).frequencies = qs.map .exact ∧ qs.Pairwise (· < ·) ∧
      qs.toFinset = p.pitches := by
  obtain ⟨qs, hqs, hascending, hmem⟩ := (show (Music.piece p).Exact from h).exists_frequencies
  refine ⟨qs, hqs, hascending, ?_⟩
  ext q
  rw [List.mem_toFinset, hmem, Piece.mem_pitches]

/-! ### Places in a list of pitches -/

section Ascending

variable {qs : List ℚ}

theorem idxOf_strictMonoOn (h : qs.Pairwise (· < ·)) :
    StrictMonoOn (fun q => qs.idxOf q) qs.toFinset := by
  intro a ha b hb hab
  have ha := List.idxOf_lt_length_of_mem (List.mem_toFinset.mp ha)
  have hb := List.idxOf_lt_length_of_mem (List.mem_toFinset.mp hb)
  show qs.idxOf a < qs.idxOf b
  apply lt_of_not_ge
  intro hle
  rcases eq_or_lt_of_le hle with heq | hlt
  · -- At one index stands one pitch.
    have hsame : qs[qs.idxOf a] = qs[qs.idxOf b] := by simp only [heq]
    rw [List.getElem_idxOf, List.getElem_idxOf] at hsame
    exact hab.ne hsame
  · have hgt := List.pairwise_iff_getElem.mp h _ _ hb ha hlt
    rw [List.getElem_idxOf, List.getElem_idxOf] at hgt
    exact lt_asymm hab hgt

theorem idxOf_bijOn (h : qs.Pairwise (· < ·)) :
    Set.BijOn (fun q => qs.idxOf q) qs.toFinset (Set.Iio qs.length) := by
  refine ⟨?_, (idxOf_strictMonoOn h).injOn, ?_⟩
  · intro q hq
    exact List.idxOf_lt_length_of_mem (List.mem_toFinset.mp hq)
  · intro i hi
    have hi : i < qs.length := hi
    have hnodup : qs.Nodup := h.imp LT.lt.ne
    refine ⟨qs[i], ?_, hnodup.idxOf_getElem i hi⟩
    exact List.mem_toFinset.mpr (List.getElem_mem hi)

end Ascending

/-! ### Degrees of the scale -/

namespace Tuning.Keyboard

/-- The frequency of a degree relative to the reference: degree 0 is the reference itself, and
the others are the entries of the scale. -/
def degree (k : Keyboard) : Nat → Option Number
  | 0 => some .one
  | i + 1 => k.entries[i]?

theorem map_div_exact (qs : List ℚ) {lowest : ℚ} (h : lowest ≠ 0) :
    (qs.map Number.exact).map (· / Number.exact lowest)
      = (qs.map (· / lowest)).map Number.exact := by
  rw [List.map_map, List.map_map]
  apply List.map_congr_left
  intro q _
  show (if lowest = 0 then _ else Number.exact (q / lowest)) = _
  rw [if_neg h]
  rfl

variable {lowest : ℚ} {rest : List ℚ}

/-- The scale of ascending pitches: all but the lowest, over the lowest. -/
theorem relative_exact (hlowest : lowest ≠ 0) (hrest : rest ≠ []) :
    relative ((lowest :: rest).map Number.exact) (.exact lowest)
      = (rest.map (· / lowest)).map Number.exact := by
  have hlength : 0 < rest.length := List.length_pos_of_ne_nil hrest
  have hmany : ¬ (((lowest :: rest).map (· / lowest)).map Number.exact).length ≤ 1 := by
    simp only [List.length_map, List.length_cons]
    omega
  rw [relative, map_div_exact _ hlowest, if_neg hmany]
  rfl

/-- Each degree of the scale is the pitch of its key over the lowest pitch. -/
theorem degree_eq {k : Keyboard} (hlowest : lowest ≠ 0)
    (hentries : k.entries = relative ((lowest :: rest).map Number.exact) (.exact lowest)) {i : ℕ}
    {q : ℚ} (hq : (lowest :: rest)[i]? = some q) : k.degree i = some (.exact (q / lowest)) := by
  cases i with
  | zero =>
    obtain rfl := Option.some.inj hq
    rw [degree, div_self hlowest]
    rfl
  | succ i =>
    rw [List.getElem?_cons_succ] at hq
    have hrest : rest ≠ [] := by
      rintro rfl
      cases hq
    rw [degree, hentries, relative_exact hlowest hrest, List.getElem?_map, List.getElem?_map, hq]
    rfl

theorem pairwise_one_cons_div (hlowest : 0 < lowest) (h : (lowest :: rest).Pairwise (· < ·)) :
    (1 :: rest.map (· / lowest)).Pairwise (· < ·) := by
  have hdiv : ((lowest :: rest).map (· / lowest)).Pairwise (· < ·) := by
    rw [List.pairwise_map]
    exact h.imp fun hab => div_lt_div_of_pos_right hab hlowest
  rwa [List.map_cons, div_self hlowest.ne'] at hdiv

end Tuning.Keyboard

/-! ### Reproduction -/

/-- A keyboard reproduces the frequencies of a piece, `key` being the key of each pitch. -/
structure Reproduces (f0 : Binary64) (p : Piece) (k : Keyboard) (key : ℚ → ℕ) : Prop where
  size : k.size = p.pitches.card
  bijective : Set.BijOn key p.pitches (Set.Iio p.pitches.card)
  increasing : StrictMonoOn key p.pitches
  keys : ∀ x i, (x, i) ∈ k.keys ↔ ∃ q ∈ p.pitches, x = .exact q ∧ i = key q
  /-- Key 0 sounds at the lowest pitch. -/
  reference : ∀ lowest ∈ p.pitches, key lowest = 0 →
    k.reference = f0 * (Number.exact lowest).toBinary64
  /-- The scale ascends from above one. -/
  entries : 2 ≤ p.pitches.card → ∃ rs : List ℚ, k.entries = rs.map .exact ∧
    rs.length + 1 = p.pitches.card ∧ (1 :: rs).Pairwise (· < ·)
  /-- What a note's key sounds at is the frequency of the note. -/
  frequency : ∀ n ∈ (Music.piece p).notes, n.isRest = false →
    ∃ q ∈ p.pitches, n.frequency.value = .exact q ∧
      k.keys.find? n.frequency.value = some (key q) ∧
      ∃ lowest ∈ p.pitches, key lowest = 0 ∧
        ∃ d, k.degree (key q) = some d ∧ .exact lowest * d = n.frequency.value
  /-- Notes share a key exactly if they have one frequency. -/
  same_key : ∀ m ∈ (Music.piece p).notes, ∀ n ∈ (Music.piece p).notes,
    m.isRest = false → n.isRest = false →
    (k.keys.find? m.frequency.value = k.keys.find? n.frequency.value ↔
      m.frequency.value = n.frequency.value)
  /-- The higher of two notes has the higher key. -/
  higher_key : ∀ m ∈ (Music.piece p).notes, ∀ n ∈ (Music.piece p).notes, ∀ a b q r,
    k.keys.find? m.frequency.value = some a → k.keys.find? n.frequency.value = some b →
    m.frequency.value = .exact q → n.frequency.value = .exact r → (q < r ↔ a < b)
  /-- The mapping maps the keys from 0 on to the degrees in their order. -/
  mapping : (Mapping.read k.mappingText).firstKey = some 0 ∧
    (Mapping.read k.mappingText).lastKey = some ((p.pitches.card : Int) - 1) ∧
    (Mapping.read k.mappingText).degrees = (List.range p.pitches.card).map some

/-- A keyboard that is made of the pitches of a piece, listed in ascending order. -/
structure MadeOf (f0 : Binary64) (p : Piece) (k : Keyboard) (qs : List ℚ) : Prop where
  ascending : qs.Pairwise (· < ·)
  pitches : qs.toFinset = p.pitches
  keys : k.keys = (qs.map Number.exact).zipIdx
  entries : k.entries
    = Keyboard.relative (qs.map .exact) ((qs.map Number.exact).head?.getD .one)
  reference : k.reference = f0 * ((qs.map Number.exact).head?.getD .one).toBinary64
  size : k.size = qs.length

/-- The keyboard of an exact piece. -/
theorem Piece.Exact.keyboard_eq {p : Piece} (h : p.Exact) (f0 : Binary64) :
    (keyCount < p.pitches.card → Music.keyboard f0 (.piece p)
      = .error (.violation (.tooManyFrequencies p.pitches.card))) ∧
    (p.pitches.card ≤ keyCount → ∃ k qs, Music.keyboard f0 (.piece p) = .ok k ∧
      MadeOf f0 p k qs) := by
  obtain ⟨qs, hqs, hascending, hpitches⟩ := h.exists_frequencies
  have hcard : (Music.piece p).frequencies.length = p.pitches.card := by
    have hnodup : qs.Nodup := hascending.imp LT.lt.ne
    rw [hqs, List.length_map, ← hpitches, List.toFinset_card_of_nodup hnodup]
  constructor
  · intro hcount
    rw [← hcard] at hcount ⊢
    exact if_pos hcount
  · intro hcount
    rw [← hcard] at hcount
    -- Every part of the keyboard is made from the list of the pitches.
    obtain ⟨k, hk⟩ : ∃ k, Music.keyboard f0 (.piece p) = .ok k :=
      ⟨_, if_neg (Nat.not_lt_of_le hcount)⟩
    have hmade := hk
    rw [Music.keyboard, Keyboard.ofFrequencies, if_neg (Nat.not_lt_of_le hcount),
      Except.ok.injEq] at hmade
    refine ⟨k, qs, hk, hascending, hpitches, ?_, ?_, ?_, ?_⟩
    · rw [← hqs]
      exact (Keyboard.keys_eq_zipIdx (Music.frequencies_ascending _) hk).2
    · rw [← hqs, ← hmade]
    · rw [← hqs, ← hmade]
    · rw [← hmade, hqs, List.length_map]

namespace MadeOf

variable {f0 : Binary64} {p : Piece} {k : Keyboard} {qs : List ℚ}

theorem mem_pitches (h : MadeOf f0 p k qs) {q : ℚ} : q ∈ p.pitches ↔ q ∈ qs := by
  rw [← h.pitches, List.mem_toFinset]

theorem nodup (h : MadeOf f0 p k qs) : qs.Nodup := h.ascending.imp LT.lt.ne

theorem length_eq (h : MadeOf f0 p k qs) : qs.length = p.pitches.card := by
  rw [← h.pitches, List.toFinset_card_of_nodup h.nodup]

theorem getElem?_idxOf {q : ℚ} (hq : q ∈ qs) : qs[qs.idxOf q]? = some q := by
  rw [List.getElem?_eq_getElem (List.idxOf_lt_length_of_mem hq), List.getElem_idxOf]

/-- The keys are the places of the pitches. -/
theorem mem_keys_iff (h : MadeOf f0 p k qs) (x : Number) (i : ℕ) :
    (x, i) ∈ k.keys ↔ ∃ q ∈ p.pitches, x = .exact q ∧ i = qs.idxOf q := by
  rw [h.keys, List.mk_mem_zipIdx_iff_getElem?, List.getElem?_map, Option.map_eq_some_iff]
  constructor
  · rintro ⟨q, hq, rfl⟩
    obtain ⟨hi, rfl⟩ := List.getElem?_eq_some_iff.mp hq
    exact ⟨qs[i], h.mem_pitches.mpr (List.getElem_mem hi), rfl,
      (h.nodup.idxOf_getElem i hi).symm⟩
  · rintro ⟨q, hq, rfl, rfl⟩
    exact ⟨q, getElem?_idxOf (h.mem_pitches.mp hq), rfl⟩

theorem keys_ascending (h : MadeOf f0 p k qs) : KeyMap.Ascending k.keys := by
  rw [h.keys]
  apply Keyboard.zipIdx_ascending
  rw [Number.Ascending, List.pairwise_map]
  exact h.ascending.imp Number.place_exact_lt.mpr

theorem find?_eq (h : MadeOf f0 p k qs) {q : ℚ} (hq : q ∈ p.pitches) :
    k.keys.find? (.exact q) = some (qs.idxOf q) :=
  KeyMap.find?_eq_some h.keys_ascending ((h.mem_keys_iff _ _).mpr ⟨q, hq, rfl, rfl⟩) rfl

/-- What is found is the key of a pitch. -/
theorem eq_of_find?_eq_some (h : MadeOf f0 p k qs) {q : ℚ} {i : ℕ}
    (hfind : k.keys.find? (.exact q) = some i) : q ∈ p.pitches ∧ i = qs.idxOf q := by
  obtain ⟨x, hmem, hplace⟩ := KeyMap.mem_of_find?_eq_some hfind
  obtain ⟨r, hr, rfl, rfl⟩ := (h.mem_keys_iff x i).mp hmem
  obtain rfl := Number.place_exact_inj.mp hplace
  exact ⟨hr, rfl⟩

/-- The lowest pitch stands in front. -/
theorem eq_cons_of_idxOf_eq_zero (h : MadeOf f0 p k qs) {lowest : ℚ} (hmem : lowest ∈ p.pitches)
    (hkey : qs.idxOf lowest = 0) : ∃ rest, qs = lowest :: rest := by
  have hfirst := getElem?_idxOf (h.mem_pitches.mp hmem)
  rw [hkey] at hfirst
  cases hqs : qs with
  | nil =>
    rw [hqs] at hfirst
    cases hfirst
  | cons first rest =>
    rw [hqs] at hfirst
    obtain rfl := Option.some.inj hfirst
    exact ⟨rest, rfl⟩

theorem reproduces (h : MadeOf f0 p k qs) (hexact : p.Exact) :
    Reproduces f0 p k fun q => qs.idxOf q := by
  constructor
  case size => exact h.size.trans h.length_eq
  case bijective =>
    rw [← h.length_eq, ← h.pitches]
    exact idxOf_bijOn h.ascending
  case increasing =>
    rw [← h.pitches]
    exact idxOf_strictMonoOn h.ascending
  case keys => exact h.mem_keys_iff
  case reference =>
    intro lowest hmem hkey
    obtain ⟨rest, rfl⟩ := h.eq_cons_of_idxOf_eq_zero hmem hkey
    exact h.reference
  case entries =>
    intro hcount
    rw [← h.length_eq] at hcount ⊢
    obtain ⟨lowest, rest, rfl⟩ : ∃ lowest rest, qs = lowest :: rest :=
      List.exists_cons_of_length_pos (by omega)
    have hlowest : 0 < lowest := hexact.pos_of_mem_pitches (h.mem_pitches.mpr List.mem_cons_self)
    have hrest : rest ≠ [] := by
      rintro rfl
      exact absurd hcount (Nat.not_succ_le_self 1)
    refine ⟨rest.map (· / lowest), ?_, ?_, Keyboard.pairwise_one_cons_div hlowest h.ascending⟩
    · rw [h.entries]
      exact Keyboard.relative_exact hlowest.ne' hrest
    · rw [List.length_map, List.length_cons]
  case frequency =>
    intro n hn hsounds
    obtain ⟨q, hq, hvalue⟩ := hexact.exists_mem_pitches hn hsounds
    rw [hvalue]
    refine ⟨q, hq, rfl, h.find?_eq hq, ?_⟩
    obtain ⟨lowest, rest, rfl⟩ : ∃ lowest rest, qs = lowest :: rest :=
      List.exists_cons_of_ne_nil (List.ne_nil_of_mem (h.mem_pitches.mp hq))
    have hmem : lowest ∈ p.pitches := h.mem_pitches.mpr List.mem_cons_self
    have hlowest : lowest ≠ 0 := (hexact.pos_of_mem_pitches hmem).ne'
    refine ⟨lowest, hmem, List.idxOf_cons_self, .exact (q / lowest), ?_, ?_⟩
    · -- Key and entry are counted in the one list, from 0 and from 1.
      exact Keyboard.degree_eq hlowest h.entries (getElem?_idxOf (h.mem_pitches.mp hq))
    · show Number.exact (lowest * (q / lowest)) = .exact q
      rw [mul_div_cancel₀ q hlowest]
  case same_key =>
    intro m hm n hn hsounds hsounds'
    obtain ⟨q, hq, hvalue⟩ := hexact.exists_mem_pitches hm hsounds
    obtain ⟨r, hr, hvalue'⟩ := hexact.exists_mem_pitches hn hsounds'
    rw [hvalue, hvalue', h.find?_eq hq, h.find?_eq hr, Option.some.injEq, Number.exact.injEq]
    exact List.idxOf_inj (h.mem_pitches.mp hq)
  case higher_key =>
    intro m hm n hn a b q r ha hb hq hr
    rw [hq] at ha
    rw [hr] at hb
    obtain ⟨hq, rfl⟩ := h.eq_of_find?_eq_some ha
    obtain ⟨hr, rfl⟩ := h.eq_of_find?_eq_some hb
    rw [← h.pitches] at hq hr
    exact ((idxOf_strictMonoOn h.ascending).lt_iff_lt hq hr).symm
  case mapping =>
    rw [Keyboard.read_mappingText, h.size, h.length_eq]
    exact ⟨rfl, rfl, rfl⟩

end MadeOf

end JustIntonation
