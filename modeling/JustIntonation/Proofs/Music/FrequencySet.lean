/-
JustIntonation/Proofs/Music/FrequencySet.lean

The frequencies of music as a set of values.

Music is nested, and a note that belongs to it may stand at some depth
(`Music.Holds`).  Which values are among the frequencies is decided by these
notes alone (`Music.lists_frequencies_iff`), and a list in ascending order is
decided by its values (`Number.Ascending.forall₂_same`).  So it does not
matter for the frequencies how the music is nested, in which order its members
come, or whether one of them is repeated.

Main result: at every level the frequencies are the set of the values that
sound, the lowest of them is the lowest frequency of the music, and together
the sets of the members are the set of the whole (`frequencySet_exact`).
-/
import JustIntonation.Proofs.Music.Frequencies
import JustIntonation.Proofs.Number.ByValue
import Mathlib.Data.List.Sort

namespace JustIntonation

/-! ### Values in a list -/

namespace Number

/-- To be zero is to be equal to zero. -/
theorem isZero_iff_same {a : Number} : a.isZero = true ↔ a.same zero = true := by
  rw [same_iff]
  cases a with
  | exact q =>
    show decide (q = 0) = true ↔ (exact q).place = (exact 0).place
    rw [decide_eq_true_iff, place_exact_inj]
  | approximate x =>
    constructor
    · intro hzero
      exact place_of_denotes (denotes_zero hzero)
    · intro hplace
      have hclass : (approximate x).position.1 = 0 := congrArg (fun p => (ofLex p).1) hplace
      have hfinite : x.isFinite := by
        by_contra hx
        have hside := position_of_not_isFinite (Bool.eq_false_iff.mpr hx)
        split_ifs at hside <;> omega
      have hvalue : x.toRat = 0 := by
        rw [place, position_of_isFinite hfinite] at hplace
        exact congrArg (fun p => (ofLex p).2) hplace
      -- No other double has the value zero, because ranks stand in the order of values.
      have hzero : Binary64.zero.toRat = 0 := by decide +kernel
      have hlow := Binary64.toRat_lt_iff (x := x) (y := .zero)
      have hhigh := Binary64.toRat_lt_iff (x := .zero) (y := x)
      rw [hvalue, hzero] at hlow hhigh
      have hrank : x.rank = Binary64.zero.rank :=
        le_antisymm (not_lt.mp fun h => (hhigh.mpr h).false) (not_lt.mp fun h => (hlow.mpr h).false)
      show decide (x.magnitude = 0) = true
      simp only [Binary64.rank, Binary64.zero, Binary64.signedZero] at hrank
      rw [decide_eq_true_iff]
      split_ifs at hrank <;> omega

/-- Some number of the list has the value. -/
def Lists (xs : List Number) (a : Number) : Prop := ∃ x ∈ xs, x.same a = true

/-- Of a list in ascending order no two numbers are equal in value. -/
theorem Ascending.eq_of_place {xs : List Number} (h : Ascending xs) {x y : Number} (hx : x ∈ xs)
    (hy : y ∈ xs) (hplace : x.place = y.place) : x = y := by
  have hapart : (xs.map place).Nodup := (List.pairwise_map.mpr h).imp fun hlt => hlt.ne
  exact List.inj_on_of_nodup_map hapart hx hy hplace

/-- Lists in ascending order that have the same values are equal in value, place by place. -/
theorem Ascending.forall₂_same {xs ys : List Number} (hxs : Ascending xs) (hys : Ascending ys)
    (h : ∀ a, Lists xs a ↔ Lists ys a) : List.Forall₂ (fun x y => x.same y = true) xs ys := by
  have hsubset {us vs : List Number} (huv : ∀ a, Lists us a → Lists vs a) :
      ∀ p ∈ us.map place, p ∈ vs.map place := by
    intro p hp
    obtain ⟨x, hx, rfl⟩ := List.mem_map.mp hp
    obtain ⟨y, hy, hsame⟩ := huv x ⟨x, hx, same_iff.mpr rfl⟩
    exact List.mem_map.mpr ⟨y, hy, same_iff.mp hsame⟩
  have hplaces : xs.map place = ys.map place := by
    apply (List.pairwise_map.mpr hxs).eq_of_mem_iff (List.pairwise_map.mpr hys)
    intro p
    exact ⟨hsubset (fun a => (h a).mp) p, hsubset (fun a => (h a).mpr) p⟩
  rw [← List.forall₂_eq_eq_eq, List.forall₂_map_left_iff, List.forall₂_map_right_iff] at hplaces
  exact hplaces.imp fun _ _ => same_iff.mpr

end Number

open Number (Lists)

/-! ### Notes at any depth -/

/-- The note stands in the music, as the music itself or at some depth of a member. -/
inductive Music.Holds (n : Note) : Music → Prop
  | itself : Holds n (.note n)
  | inside {music member : Music} (hmember : member ∈ music.children) (hholds : Holds n member) :
      Holds n music

section Notes

variable {music : Music} {n : Note}

theorem Event.notes_toMusic (e : Event) : e.toMusic.notes = e.notes := by
  cases e <;> rfl

/-- The notes of anything but a note are those of its members. -/
theorem Music.notes_eq_flatMap (h : ∀ m, music ≠ .note m) :
    music.notes = music.children.flatMap Music.notes := by
  cases music with
  | note m => exact absurd rfl (h m)
  | chord ns =>
    show ns = (ns.map Music.note).flatMap notes
    rw [List.flatMap_map]
    exact (List.flatMap_singleton' ns).symm
  | part p =>
    show p.events.flatMap Event.notes = (p.events.map Event.toMusic).flatMap notes
    simp only [List.flatMap_map, Event.notes_toMusic]
  | piece p =>
    show _ = (p.parts.map Music.part).flatMap notes
    rw [List.flatMap_map]
    rfl

theorem Music.holds_event {e : Event} (h : n ∈ e.notes) : e.toMusic.Holds n := by
  cases e with
  | note m =>
    obtain rfl := List.mem_singleton.mp h
    exact .itself
  | chord notes => exact .inside (List.mem_map_of_mem h) .itself

theorem Music.holds_part {p : Part} (h : n ∈ (Music.part p).notes) : (Music.part p).Holds n := by
  obtain ⟨e, he, hn⟩ := List.mem_flatMap.mp h
  exact .inside (List.mem_map_of_mem he) (holds_event hn)

/-- The notes of music in document order are those that stand in it at any depth. -/
theorem Music.holds_iff : music.Holds n ↔ n ∈ music.notes := by
  constructor
  · intro h
    induction h with
    | itself => exact List.mem_singleton_self n
    | @inside music member hmember _ ih =>
      have hcomposite : ∀ m, music ≠ .note m := by
        rintro m rfl
        cases hmember
      rw [notes_eq_flatMap hcomposite]
      exact List.mem_flatMap.mpr ⟨member, hmember, ih⟩
  · intro h
    cases music with
    | note m => exact holds_event (e := .note m) h
    | chord notes => exact holds_event (e := .chord notes) h
    | part p => exact holds_part h
    | piece p =>
      obtain ⟨part, hpart, hn⟩ := List.mem_flatMap.mp h
      exact .inside (List.mem_map_of_mem hpart) (holds_part hn)

/-! ### Values that sound -/

/-- Among the frequencies are the values of the sounding notes. -/
theorem Music.lists_frequencies_iff {a : Number} : Lists music.frequencies a ↔
    ∃ n, music.Holds n ∧ n.isRest = false ∧ n.frequency.value.same a = true := by
  constructor
  · rintro ⟨f, hf, hsame⟩
    obtain ⟨n, hn, hsounds, rfl⟩ := exists_note_of_mem_frequencies hf
    exact ⟨n, holds_iff.mpr hn, hsounds, hsame⟩
  · rintro ⟨n, hn, hsounds, hsame⟩
    obtain ⟨f, hf, hplace⟩ := exists_mem_frequencies (holds_iff.mp hn) hsounds
    exact ⟨f, hf, Number.same_iff.mpr (hplace.trans (Number.same_iff.mp hsame))⟩

/-- What sounds in anything but a note sounds in one of its members. -/
theorem Music.lists_frequencies_children (h : ∀ m, music ≠ .note m) {a : Number} :
    Lists music.frequencies a ↔ ∃ member ∈ music.children, Lists member.frequencies a := by
  simp only [lists_frequencies_iff, holds_iff, notes_eq_flatMap h, List.mem_flatMap]
  constructor
  · rintro ⟨n, ⟨member, hmember, hn⟩, hsounds, hsame⟩
    exact ⟨member, hmember, n, hn, hsounds, hsame⟩
  · rintro ⟨member, hmember, n, hn, hsounds, hsame⟩
    exact ⟨n, ⟨member, hmember, hn⟩, hsounds, hsame⟩

end Notes

/-! ### Sets of frequencies -/

/-- The list is the set of the frequencies that sound in the music, each of them once and in
ascending order: every note in the music is silent or has one entry that is equal to its frequency,
and every entry is the frequency of some note. -/
structure Music.IsFrequencySet (music : Music) (set : List Number) : Prop where
  ascending : set.Pairwise fun f g => f.compare g = .lt
  nonzero : ∀ f ∈ set, f.same .zero = false
  entry : ∀ n, music.Holds n → n.frequency.value.same .zero = true ∨
    ∃! f, f ∈ set ∧ f.same n.frequency.value = true
  source : ∀ f ∈ set, ∃ n, music.Holds n ∧ n.frequency.value = f

/-- The number is the lowest frequency of the music, and lies beyond all numbers where nothing
sounds. -/
structure Music.IsLowest (music : Music) (lowest : Number) : Prop where
  first : ∀ f set, music.frequencies = f :: set → lowest = f
  le : ∀ n, music.Holds n → n.frequency.value.same .zero = false →
    (lowest.compare n.frequency.value).isLE = true
  silence : (∀ n, music.Holds n → n.frequency.value.same .zero = true) →
    lowest = .approximate (.infinity false)

namespace Music

variable {music : Music} {n : Note}

theorem isRest_iff_same : n.isRest = true ↔ n.frequency.value.same .zero = true :=
  Number.isZero_iff_same

theorem sounds_iff_not_same : n.isRest = false ↔ n.frequency.value.same .zero = false := by
  rw [← Bool.not_eq_true, ← Bool.not_eq_true, isRest_iff_same]

theorem isFrequencySet_frequencies (music : Music) : music.IsFrequencySet music.frequencies where
  ascending := music.frequencies_ascending.imp Number.compare_eq_lt.mpr
  nonzero := by
    intro f hf
    obtain ⟨n, -, hsounds, rfl⟩ := exists_note_of_mem_frequencies hf
    exact sounds_iff_not_same.mp hsounds
  entry := by
    intro n hn
    cases hrest : n.isRest with
    | true => exact .inl (isRest_iff_same.mp hrest)
    | false =>
      obtain ⟨f, hf, hplace⟩ := exists_mem_frequencies (holds_iff.mp hn) hrest
      refine .inr ⟨f, ⟨hf, Number.same_iff.mpr hplace⟩, ?_⟩
      rintro g ⟨hg, hsame⟩
      exact music.frequencies_ascending.eq_of_place hg hf
        ((Number.same_iff.mp hsame).trans hplace.symm)
  source := by
    intro f hf
    obtain ⟨n, hn, -, hvalue⟩ := exists_note_of_mem_frequencies hf
    exact ⟨n, holds_iff.mpr hn, hvalue⟩

theorem isLowest_lowest (music : Music) : music.IsLowest music.lowest where
  first := by
    intro f set hset
    rw [lowest, hset]
    rfl
  le := by
    intro n hn hsounds
    obtain ⟨f, hf, hplace⟩ :=
      exists_mem_frequencies (holds_iff.mp hn) (sounds_iff_not_same.mpr hsounds)
    rw [Number.compare_isLE, ← hplace, lowest]
    have hascending := music.frequencies_ascending
    cases hset : music.frequencies with
    | nil =>
      rw [hset] at hf
      cases hf
    | cons g set =>
      rw [hset] at hf hascending
      show g.place ≤ f.place
      rcases List.mem_cons.mp hf with rfl | hf
      · exact le_refl f.place
      · exact (List.rel_of_pairwise_cons hascending hf).le
  silence := by
    intro hsilent
    have hset : music.frequencies = [] := by
      apply List.eq_nil_iff_forall_not_mem.mpr
      intro f hf
      obtain ⟨n, hn, hsounds, -⟩ := exists_note_of_mem_frequencies hf
      have hrest := isRest_iff_same.mpr (hsilent n (holds_iff.mpr hn))
      rw [hsounds] at hrest
      cases hrest
    rw [lowest, hset]
    rfl

end Music

/-- The frequencies of music at any level are the set of the values that sound in it, and the
lowest of them is its lowest frequency.  What a chord, a part or a piece has for frequencies is what
its members have, and two of these that have the same members, in whatever order and however often,
have frequencies that are equal in value. -/
theorem frequencySet_exact :
    (∀ music : Music, music.IsFrequencySet music.frequencies ∧ music.IsLowest music.lowest) ∧
    (∀ music : Music, (∀ n, music ≠ .note n) → ∀ a,
      Lists music.frequencies a ↔ ∃ member ∈ music.children, Lists member.frequencies a) ∧
    ∀ music music' : Music, (∀ n, music ≠ .note n) → (∀ n, music' ≠ .note n) →
      (∀ member, member ∈ music.children ↔ member ∈ music'.children) →
      List.Forall₂ (fun f g => f.same g = true) music.frequencies music'.frequencies := by
  refine ⟨fun music => ⟨music.isFrequencySet_frequencies, music.isLowest_lowest⟩,
    fun music h a => Music.lists_frequencies_children h, ?_⟩
  intro music music' h h' hmembers
  apply music.frequencies_ascending.forall₂_same music'.frequencies_ascending
  intro a
  rw [Music.lists_frequencies_children h, Music.lists_frequencies_children h']
  simp only [hmembers]

/-- A chord of a wolf fifth, a tempered fifth and a rest. -/
def twoFifths : List Note :=
  [⟨.ratio (.ofTerms 40 27 (by decide)), .one, .one⟩, ⟨.power ⟨2, 7, 12⟩, .one, .one⟩, .rest .one]

/-- The chord from behind, with its last note once more, has the same frequencies. -/
theorem frequencySet_exact_fifths :
    (∀ n, Music.chord twoFifths ≠ .note n) ∧
    (∀ n, Music.chord (.rest .one :: twoFifths.reverse) ≠ .note n) ∧
    (∀ member, member ∈ (Music.chord twoFifths).children ↔
      member ∈ (Music.chord (.rest .one :: twoFifths.reverse)).children) ∧
    (∀ a, Lists (Music.chord twoFifths).frequencies a ↔
      ∃ member ∈ (Music.chord twoFifths).children, Lists member.frequencies a) ∧
    List.Forall₂ (fun f g => f.same g = true) (Music.chord twoFifths).frequencies
      (Music.chord (.rest .one :: twoFifths.reverse)).frequencies := by
  have hchord : ∀ n, Music.chord twoFifths ≠ .note n := fun n h => by cases h
  have hchord' : ∀ n, Music.chord (.rest .one :: twoFifths.reverse) ≠ .note n :=
    fun n h => by cases h
  have hmembers : ∀ member, member ∈ (Music.chord twoFifths).children ↔
      member ∈ (Music.chord (.rest .one :: twoFifths.reverse)).children := by
    intro member
    simp only [Music.children, twoFifths, List.reverse_cons, List.reverse_nil, List.nil_append,
      List.cons_append, List.map_cons, List.map_nil, List.mem_cons, List.not_mem_nil, or_false]
    tauto
  exact ⟨hchord, hchord', hmembers, frequencySet_exact.2.1 _ hchord,
    frequencySet_exact.2.2 _ _ hchord hchord' hmembers⟩

end JustIntonation
