/-
JustIntonation/Proofs/Tuning/Scale.lean

The scale of music.

A scale is sorted and then rid of neighbours that are equal, which removes
every repetition because equal numbers have become neighbours.  So the scale
of exact music is the one strictly ascending list of the octave classes of its
sounding notes (`Music.Exact.exists_scale`), and it depends on nothing but
which classes sound: notes may change octaves, places and numbers, and rests
may be added (`Rearranged`).

Main result: reduction finds the class of every positive frequency, and the
scale of exact music is the set of the classes (`scale_octaveClasses`).
-/
import JustIntonation.Proofs.Music.Frequencies
import JustIntonation.Proofs.Tuning.Octave
import Mathlib.Data.List.Sort

namespace JustIntonation

open Tuning

/-! ### Classes of frequencies -/

theorem Tuning.exists_octaveClasses {qs : List ℚ} (hpos : ∀ q ∈ qs, 0 < q) :
    ∃ rs : List ℚ, octaveClasses (qs.map .exact) = rs.map .exact ∧ rs.Pairwise (· < ·) ∧
      ∀ r, r ∈ rs ↔ ∃ q ∈ qs, IsOctaveClass q r := by
  have hmem : ∀ x, x ∈ Number.sort ((qs.map Number.exact).map octaveReduce) ↔
      ∃ q ∈ qs, octaveReduce (.exact q) = x := by
    intro x
    rw [Number.sort, List.mem_mergeSort, List.map_map, List.mem_map]
    rfl
  obtain ⟨rs, hrs⟩ : ∃ rs : List ℚ, octaveClasses (qs.map .exact) = rs.map .exact := by
    apply exists_map_exact
    intro x hx
    obtain ⟨q, hq, rfl⟩ := (hmem x).mp (Number.mem_of_mem_dedup hx)
    obtain ⟨r, hr⟩ := exists_isOctaveClass (hpos q hq)
    exact ⟨r, octaveReduce_eq hr⟩
  refine ⟨rs, hrs, ?_, fun r => ⟨?_, ?_⟩⟩
  · have hascending : Number.Ascending (octaveClasses (qs.map .exact)) :=
      Number.dedup_ascending (Number.pairwise_sort _)
    rw [hrs, Number.Ascending, List.pairwise_map] at hascending
    exact hascending.imp Number.place_exact_lt.mp
  · intro hr
    have hscale : Number.exact r ∈ octaveClasses (qs.map .exact) := by
      rw [hrs]
      exact List.mem_map_of_mem hr
    obtain ⟨q, hq, hreduce⟩ := (hmem _).mp (Number.mem_of_mem_dedup hscale)
    obtain ⟨r', hr'⟩ := exists_isOctaveClass (hpos q hq)
    obtain rfl : r' = r := by simpa [octaveReduce_eq hr'] using hreduce
    exact ⟨q, hq, hr'⟩
  · rintro ⟨q, hq, hr⟩
    obtain ⟨y, hy, hplace⟩ :=
      Number.exists_mem_dedup ((hmem (.exact r)).mpr ⟨q, hq, octaveReduce_eq hr⟩)
    change y ∈ octaveClasses (qs.map .exact) at hy
    rw [hrs] at hy
    obtain ⟨r', hr', rfl⟩ := List.mem_map.mp hy
    rwa [← Number.place_exact_inj.mp hplace]

/-! ### The scale of exact music -/

/-- The scale as rationals: in ascending order, the frequencies of the octave from one up to below
two from which a sounding note is a number of octaves away. -/
theorem Music.Exact.exists_scale {music : Music} (h : music.Exact) :
    ∃ rs : List ℚ, music.scale = rs.map .exact ∧ rs.Pairwise (· < ·) ∧
      ∀ r, r ∈ rs ↔ 1 ≤ r ∧ r < 2 ∧
        ∃ n ∈ music.notes, n.isRest = false ∧ ∃ k : ℤ, n.frequency.value = .exact (r * 2 ^ k) := by
  obtain ⟨qs, hqs, -, hmem⟩ := h.exists_frequencies
  have hpos : ∀ q ∈ qs, 0 < q := by
    intro q hq
    obtain ⟨hne, n, hn, hvalue⟩ := (hmem q).mp hq
    obtain ⟨q', hq', hvalue'⟩ := h n hn
    obtain rfl : q' = q := by simpa [hvalue'] using hvalue
    exact lt_of_le_of_ne hq' hne.symm
  obtain ⟨rs, hrs, hascending, hclasses⟩ := exists_octaveClasses hpos
  refine ⟨rs, by rw [Music.scale, hqs, hrs], hascending, fun r => (hclasses r).trans ⟨?_, ?_⟩⟩
  · rintro ⟨q, hq, hclass⟩
    obtain ⟨hne, n, hn, hvalue⟩ := (hmem q).mp hq
    obtain ⟨k, rfl⟩ := hclass.octaves
    exact ⟨hclass.one_le, hclass.lt_two, n, hn, (Note.sounds_iff hvalue).mpr hne, k, hvalue⟩
  · rintro ⟨hone, htwo, n, hn, hsounds, k, hvalue⟩
    exact ⟨r * 2 ^ k, (hmem _).mpr ⟨(Note.sounds_iff hvalue).mp hsounds, n, hn, hvalue⟩,
      hone, htwo, k, rfl⟩

/-! ### Changes that leave the scale alone -/

/-- Every exact sounding note of the one is some octaves away from a note of the other. -/
def CoveredByOctaves (ns ns' : List Note) : Prop :=
  ∀ n ∈ ns, ∀ q : ℚ, q ≠ 0 → n.frequency.value = .exact q →
    ∃ n' ∈ ns', ∃ k : ℤ, n'.frequency.value = .exact (q * 2 ^ k)

theorem CoveredByOctaves.of_subset {ns ns' : List Note}
    (h : ∀ n ∈ ns, n.isRest = false → n ∈ ns') : CoveredByOctaves ns ns' := by
  intro n hn q hq hvalue
  exact ⟨n, h n hn ((Note.sounds_iff hvalue).mpr hq), 0, by rw [hvalue, zpow_zero, mul_one]⟩

theorem CoveredByOctaves.trans {ns ns' ns'' : List Note} (h : CoveredByOctaves ns ns')
    (h' : CoveredByOctaves ns' ns'') : CoveredByOctaves ns ns'' := by
  intro n hn q hq hvalue
  obtain ⟨n', hn', k, hvalue'⟩ := h n hn q hq hvalue
  obtain ⟨n'', hn'', k', hvalue''⟩ := h' n' hn' _ (by positivity) hvalue'
  exact ⟨n'', hn'', k + k', by rw [hvalue'', zpow_add₀ two_ne_zero, mul_assoc]⟩

/-- One of the notes in its place is moved by octaves. -/
theorem CoveredByOctaves.moved {before after : List Note} {n n' : Note} {q : ℚ} {k : ℤ}
    (h : n.frequency.value = .exact q) (h' : n'.frequency.value = .exact (q * 2 ^ k)) :
    CoveredByOctaves (before ++ n :: after) (before ++ n' :: after) := by
  intro m hm p hp hvalue
  rcases List.mem_append.mp hm with hm | hm
  · exact ⟨m, List.mem_append_left _ hm, 0, by rw [hvalue, zpow_zero, mul_one]⟩
  rcases List.mem_cons.mp hm with rfl | hm
  · obtain rfl : q = p := by simpa [h] using hvalue
    exact ⟨n', by simp, k, h'⟩
  · exact ⟨m, by simp [hm], 0, by rw [hvalue, zpow_zero, mul_one]⟩

/-- Some notes are moved by octaves, reordered or repeated, and some rests are added. -/
inductive Rearranged : List Note → List Note → Prop
  | moved {n n' : Note} {q : ℚ} {k : ℤ} (before after : List Note)
      (h : n.frequency.value = .exact q) (h' : n'.frequency.value = .exact (q * 2 ^ k)) :
      Rearranged (before ++ n :: after) (before ++ n' :: after)
  | reordered {ns ns' : List Note} (h : ns.Perm ns') : Rearranged ns ns'
  | repeated {n : Note} {ns : List Note} (h : n ∈ ns) : Rearranged ns (n :: ns)
  | rest {n : Note} (ns : List Note) (h : n.isRest = true) : Rearranged ns (n :: ns)
  | trans {ns ns' ns'' : List Note} (h : Rearranged ns ns') (h' : Rearranged ns' ns'') :
      Rearranged ns ns''

theorem Rearranged.covered {ns ns' : List Note} (h : Rearranged ns ns') :
    CoveredByOctaves ns ns' ∧ CoveredByOctaves ns' ns := by
  induction h with
  | @moved n n' q k _ _ h h' =>
    have hback : n.frequency.value = .exact (q * 2 ^ k * 2 ^ (-k)) := by
      rw [h, mul_assoc, ← zpow_add₀ two_ne_zero, add_neg_cancel, zpow_zero, mul_one]
    exact ⟨.moved h h', .moved h' hback⟩
  | reordered h =>
    exact ⟨.of_subset fun n hn _ => h.mem_iff.mp hn, .of_subset fun n hn _ => h.mem_iff.mpr hn⟩
  | repeated h =>
    refine ⟨.of_subset fun n hn _ => List.mem_cons_of_mem _ hn, .of_subset fun n hn _ => ?_⟩
    rcases List.mem_cons.mp hn with rfl | hn
    · exact h
    · exact hn
  | rest _ h =>
    refine ⟨.of_subset fun n hn _ => List.mem_cons_of_mem _ hn, .of_subset fun n hn hsounds => ?_⟩
    rcases List.mem_cons.mp hn with rfl | hn
    · rw [h] at hsounds
      cases hsounds
    · exact hn
  | trans _ _ ih ih' => exact ⟨ih.1.trans ih'.1, ih'.2.trans ih.2⟩

/-- A class that sounds in the one sounds in the other. -/
theorem CoveredByOctaves.exists_note {ns ns' : List Note} (h : CoveredByOctaves ns ns') {r : ℚ}
    (hr : 1 ≤ r)
    (hn : ∃ n ∈ ns, n.isRest = false ∧ ∃ k : ℤ, n.frequency.value = .exact (r * 2 ^ k)) :
    ∃ n ∈ ns', n.isRest = false ∧ ∃ k : ℤ, n.frequency.value = .exact (r * 2 ^ k) := by
  obtain ⟨n, hn, -, k, hvalue⟩ := hn
  have hpos : 0 < r := one_pos.trans_le hr
  obtain ⟨n', hn', k', hvalue'⟩ := h n hn _ (by positivity) hvalue
  rw [mul_assoc, ← zpow_add₀ two_ne_zero] at hvalue'
  exact ⟨n', hn', (Note.sounds_iff hvalue').mpr (by positivity), k + k', hvalue'⟩

theorem Music.Exact.scale_eq {music music' : Music} (h : music.Exact) (h' : music'.Exact)
    (hcovered : CoveredByOctaves music.notes music'.notes)
    (hcovered' : CoveredByOctaves music'.notes music.notes) : music'.scale = music.scale := by
  obtain ⟨rs, hrs, hascending, hmem⟩ := h.exists_scale
  obtain ⟨rs', hrs', hascending', hmem'⟩ := h'.exists_scale
  rw [hrs, hrs']
  congr 1
  apply hascending'.eq_of_mem_iff hascending
  intro r
  rw [hmem, hmem']
  constructor
  · rintro ⟨hone, htwo, hn⟩
    exact ⟨hone, htwo, hcovered'.exists_note hone hn⟩
  · rintro ⟨hone, htwo, hn⟩
    exact ⟨hone, htwo, hcovered.exists_note hone hn⟩

/-! ### Scales are sets of octave classes -/

/-- On a positive frequency the loops end and the reduction finds what they end in, its one octave
class; a class is its own, and an octave up or down there is the same.  The scale of exact music
is the strictly ascending list of the classes of its sounding notes, and any rearrangement of the
notes has the same scale. -/
theorem scale_octaveClasses :
    (∀ q : ℚ, 0 < q → ∃ r, octaveReduce (.exact q) = .exact r ∧
      (∃ mid, Halved q mid ∧ Doubled mid r) ∧
      IsOctaveClass q r ∧ (∀ r', IsOctaveClass q r' → r' = r) ∧
      octaveReduce (.exact r) = .exact r ∧
      octaveReduce (.exact (q * 2)) = .exact r ∧ octaveReduce (.exact (q / 2)) = .exact r) ∧
    ∀ music : Music, music.Exact →
      (∃ rs : List ℚ, music.scale = rs.map .exact ∧ rs.Pairwise (· < ·) ∧
        ∀ r, r ∈ rs ↔ 1 ≤ r ∧ r < 2 ∧
          ∃ n ∈ music.notes, n.isRest = false ∧
            ∃ k : ℤ, n.frequency.value = .exact (r * 2 ^ k)) ∧
      ∀ music' : Music, music'.Exact → Rearranged music.notes music'.notes →
        music'.scale = music.scale := by
  constructor
  · intro q hq
    obtain ⟨mid, r, hmid, hr⟩ := exists_loops_iff.mpr hq
    have hclass := isOctaveClass_of_loops hmid hr
    have hup := hclass.mul_zpow 1
    have hdown := hclass.mul_zpow (-1)
    rw [zpow_one] at hup
    rw [zpow_neg_one, ← div_eq_mul_inv] at hdown
    exact ⟨r, octaveReduce_of_loops hmid hr, ⟨mid, hmid, hr⟩, hclass,
      fun r' hr' => hr'.unique hclass, octaveReduce_eq (.self hclass.one_le hclass.lt_two),
      octaveReduce_eq hup, octaveReduce_eq hdown⟩
  · intro music h
    refine ⟨h.exists_scale, fun music' h' hrearranged => ?_⟩
    obtain ⟨hcovered, hcovered'⟩ := hrearranged.covered
    exact h.scale_eq h' hcovered hcovered'

/-- A note that sounds for one beat. -/
def beatOf (r : Ratio) : Note := ⟨.ratio r, .one, .one⟩

/-- Three is reduced to the fifth, and a twelfth has the scale of a rest and a fifth. -/
theorem scale_octaveClasses_fifth : (0 : ℚ) < 3 ∧ (Music.note (beatOf (.ofInt 3))).Exact ∧
    (Music.chord [.rest .one, beatOf (.ofTerms 3 2 (by decide))]).Exact ∧
    octaveReduce (.exact 3) = .exact (3 / 2) ∧
    (Music.chord [.rest .one, beatOf (.ofTerms 3 2 (by decide))]).scale
      = (Music.note (beatOf (.ofInt 3))).scale := by
  have hpos : (0 : ℚ) < 3 := by decide
  have hexact : (Music.note (beatOf (.ofInt 3))).Exact := by decide +kernel
  have hexact' : (Music.chord [.rest .one, beatOf (.ofTerms 3 2 (by decide))]).Exact := by
    decide +kernel
  have hmoved : Rearranged [beatOf (.ofInt 3)] [beatOf (.ofTerms 3 2 (by decide))] :=
    .moved [] [] (q := 3) (k := -1) (by decide +kernel) (by decide +kernel)
  have hrearranged := hmoved.trans (.rest (n := .rest .one) _ (by decide +kernel))
  obtain ⟨hreduction, hscales⟩ := scale_octaveClasses
  obtain ⟨r, hr, -, hclass, hunique, -⟩ := hreduction 3 hpos
  have hfifth : IsOctaveClass 3 (3 / 2) := ⟨by norm_num, by norm_num, 1, by norm_num⟩
  rw [← hunique _ hfifth] at hr
  exact ⟨hpos, hexact, hexact', hr, (hscales _ hexact).2 _ hexact' hrearranged⟩

end JustIntonation
