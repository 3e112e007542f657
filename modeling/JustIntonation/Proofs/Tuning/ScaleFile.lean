/-
JustIntonation/Proofs/Tuning/ScaleFile.lean

What a scale file says to a program that reads it.

Every line ends with a line feed.  The first has the title, the second the
number of entries, the third is an exclamation mark, and each of the others
has one entry behind a blank (`ReadsAs`).  As the entries are in lowest terms
and of any length, it takes a reader of numbers of any length to see that the
ratios are those that were written.

A scale that stands by itself is closed by the octave in place of the unison.
The unison can only be in front, where a strictly ascending list has its least
member, and the octave is above all the others; so the closed scale ascends
as well (`exists_closed`).

Main result: scale files read back exactly, and the scale of exact music by
itself ascends from above the unison to the octave (`readsAs_scaleFile`).
-/
import JustIntonation.Proofs.Text.Numbers
import JustIntonation.Proofs.Tuning.Scale

namespace JustIntonation.Tuning

open Text

/-! ### Reading -/

/-- The text has the lines of a scale file, and in these stand the title, the number of ratios and
the ratios; nothing stands behind the last line. -/
def ReadsAs (text title : String) (qs : List ℚ) : Prop :=
  ∃ (count : List Char) (entries : List (List Char)), text.toList.splitOn '\n'
      = [' ' :: title.toList, ' ' :: count, ['!']] ++ entries.map (' ' :: ·) ++ [[]] ∧
    natural? count = some qs.length ∧ entries.map rational? = qs.map some

theorem scaleFile_eq_join (title : String) (entries : List Number) : scaleFile title entries
    = String.join (([" " ++ title, " " ++ toString entries.length, "!"]
      ++ entries.map fun x => " " ++ entryText x).map (· ++ "\n")) := by
  apply String.toList_inj.mp
  simp [scaleFile, String.toList_join, List.flatMap_map]

/-- A scale file of ratios is read as what was written. -/
theorem readsAs_of_title {title : String} (htitle : '\n' ∉ title.toList) (qs : List ℚ) :
    ReadsAs (scaleFile title (qs.map .exact)) title qs := by
  have hbehind : ∀ {text : String}, '\n' ∉ text.toList → '\n' ∉ (" " ++ text).toList := by
    intro text htext
    rw [String.toList_append, List.mem_append, not_or]
    exact ⟨by decide, htext⟩
  have hcount : '\n' ∉ (toString (qs.map Number.exact).length).toList :=
    not_mem_toString rfl (by decide) ((qs.map Number.exact).length : Int)
  refine ⟨(toString qs.length).toList, qs.map fun q => (rationalText q).toList, ?_,
    natural?_toString _, ?_⟩
  · rw [scaleFile_eq_join, splitOn_join]
    · simp [entryText]
    · rw [List.forall_mem_append]
      constructor
      · simp only [List.forall_mem_cons]
        exact ⟨hbehind htitle, hbehind hcount, by decide, nofun⟩
      · simp only [List.map_map, List.forall_mem_map]
        exact fun q _ => hbehind (not_mem_rationalText rfl (by decide) (by decide) q)
  · rw [List.map_map]
    exact List.map_congr_left fun q _ => rational?_rationalText q

/-! ### Closing -/

/-- The unison can only be the first, so that what is closed is the rest of the scale, with the
octave behind it if the unison was there. -/
theorem closed_eq {ss : List ℚ} (hascending : ss.Pairwise (· < ·)) (hleast : ∀ s ∈ ss, 1 ≤ s) :
    closed (ss.map .exact)
      = (ss.filter (· ≠ 1) ++ if 1 ∈ ss then [2] else []).map .exact := by
  cases ss with
  | nil => rfl
  | cons s ss =>
    obtain ⟨hs, -⟩ := List.pairwise_cons.mp hascending
    have hone : 1 ≤ s := hleast s List.mem_cons_self
    have habove : ∀ q ∈ ss, 1 < q := fun q hq => hone.trans_lt (hs q hq)
    have hrest : ss.filter (· ≠ 1) = ss :=
      List.filter_eq_self.mpr fun q hq => by simpa using (habove q hq).ne'
    have hsame : (Number.exact s).same .one ↔ s = 1 :=
      Number.same_iff.trans Number.place_exact_inj
    rw [List.map_cons, closed]
    by_cases hunison : s = 1
    · have hmem : 1 ∈ s :: ss := hunison ▸ List.mem_cons_self
      rw [if_pos (hsame.mpr hunison), if_pos hmem, List.filter_cons_of_neg (by simp [hunison]),
        hrest, List.map_append]
      rfl
    · have hnone : 1 ∉ s :: ss := by
        rw [List.mem_cons, not_or]
        exact ⟨Ne.symm hunison, fun h => (habove 1 h).false⟩
      rw [if_neg (mt hsame.mp hunison), if_neg hnone, List.filter_cons_of_pos (by simp [hunison]),
        hrest, List.append_nil, List.map_cons]

/-- A strictly ascending scale in the octave from the unison on is closed by the octave in place of
the unison. -/
theorem exists_closed {ss : List ℚ} (hascending : ss.Pairwise (· < ·))
    (hrange : ∀ s ∈ ss, 1 ≤ s ∧ s < 2) :
    ∃ qs : List ℚ, closed (ss.map .exact) = qs.map .exact ∧ qs.Pairwise (· < ·) ∧
      (∀ q ∈ qs, 1 < q ∧ q ≤ 2) ∧ (2 ∈ qs ↔ 1 ∈ ss) ∧
      qs.filter (· ≠ 2) = ss.filter (· ≠ 1) := by
  have hothers : ∀ q ∈ ss.filter (· ≠ 1), 1 < q ∧ q < 2 := by
    intro q hq
    obtain ⟨hmem, hne⟩ := List.mem_filter.mp hq
    obtain ⟨hone, htwo⟩ := hrange q hmem
    exact ⟨lt_of_le_of_ne hone (Ne.symm (of_decide_eq_true hne)), htwo⟩
  have hlast : ∀ q ∈ if 1 ∈ ss then [(2 : ℚ)] else [], q = 2 := by
    split_ifs <;> simp
  refine ⟨_, closed_eq hascending fun s hs => (hrange s hs).1,
    ?ascending, ?range, ?octave, ?others⟩
  case ascending =>
    refine List.pairwise_append.mpr ⟨hascending.filter _, by split_ifs <;> simp, ?_⟩
    intro q hq q' hq'
    rw [hlast q' hq']
    exact (hothers q hq).2
  case range =>
    rw [List.forall_mem_append]
    refine ⟨fun q hq => ⟨(hothers q hq).1, (hothers q hq).2.le⟩, fun q hq => ?_⟩
    rw [hlast q hq]
    exact ⟨one_lt_two, le_rfl⟩
  case octave =>
    rw [List.mem_append, or_iff_right fun h => (hothers 2 h).2.false]
    split_ifs with hunison <;> simp [hunison]
  case others =>
    have hkept : (ss.filter (· ≠ 1)).filter (· ≠ 2) = ss.filter (· ≠ 1) :=
      List.filter_eq_self.mpr fun q hq => decide_eq_true (hothers q hq).2.ne
    have hdropped : (if 1 ∈ ss then [(2 : ℚ)] else []).filter (· ≠ 2) = [] :=
      List.filter_eq_nil_iff.mpr fun q hq => by simpa using hlast q hq
    rw [List.filter_append, hkept, hdropped, List.append_nil]

end JustIntonation.Tuning

namespace JustIntonation

open Tuning

/-- The scale of exact music by itself: it has the octave exactly if the unison or an octave of it
sounds. -/
theorem Music.Exact.exists_closed_scale {music : Music} (h : music.Exact) :
    ∃ ss qs : List ℚ, music.scale = ss.map .exact ∧ closed music.scale = qs.map .exact ∧
      qs.Pairwise (· < ·) ∧ (∀ q ∈ qs, 1 < q ∧ q ≤ 2) ∧
      (2 ∈ qs ↔ ∃ n ∈ music.notes, ∃ k : ℤ, n.frequency.value = .exact (2 ^ k)) ∧
      qs.filter (· ≠ 2) = ss.filter (· ≠ 1) := by
  obtain ⟨ss, hss, hascending, hmem⟩ := h.exists_scale
  obtain ⟨qs, hqs, hqsAscending, hrange, hoctave, hothers⟩ := exists_closed hascending
    fun s hs => ⟨((hmem s).mp hs).1, ((hmem s).mp hs).2.1⟩
  refine ⟨ss, qs, hss, by rw [hss, hqs], hqsAscending, hrange, hoctave.trans ?_, hothers⟩
  rw [hmem]
  simp only [one_mul]
  constructor
  · rintro ⟨-, -, n, hn, -, k, hvalue⟩
    exact ⟨n, hn, k, hvalue⟩
  · rintro ⟨n, hn, k, hvalue⟩
    exact ⟨le_rfl, one_lt_two, n, hn, (Note.sounds_iff hvalue).mpr (by positivity), k, hvalue⟩

/-- A scale file of ratios is read as its title, their number and the ratios in their order.  The
scale file of exact music by itself has strictly ascending ratios above one and up to two; two is
one of them exactly if some frequency is a power of two, and the others are the scale without
one. -/
theorem readsAs_scaleFile :
    (∀ (title : String) (qs : List ℚ), '\n' ∉ title.toList →
      ReadsAs (scaleFile title (qs.map .exact)) title qs) ∧
    ∀ music : Music, music.Exact → ∃ ss qs : List ℚ, music.scale = ss.map .exact ∧
      (∀ title, music.standaloneScale title = scaleFile title (qs.map .exact)) ∧
      qs.Pairwise (· < ·) ∧ (∀ q ∈ qs, 1 < q ∧ q ≤ 2) ∧ 1 ∉ qs ∧
      (2 ∈ qs ↔ ∃ n ∈ music.notes, ∃ k : ℤ, n.frequency.value = .exact (2 ^ k)) ∧
      qs.filter (· ≠ 2) = ss.filter (· ≠ 1) := by
  refine ⟨fun title qs htitle => readsAs_of_title htitle qs, fun music h => ?_⟩
  obtain ⟨ss, qs, hss, hqs, hascending, hrange, hoctave, hothers⟩ := h.exists_closed_scale
  refine ⟨ss, qs, hss, ?_, hascending, hrange, fun hone => (hrange 1 hone).1.false, hoctave,
    hothers⟩
  intro title
  rw [Music.standaloneScale, hqs]

/-- The unison and the fifth: the scale is closed by the octave. -/
theorem readsAs_scaleFile_fifth : '\n' ∉ "fifth".toList ∧
    (Music.chord [beatOf (.ofInt 1), beatOf (.ofTerms 3 2 (by decide))]).Exact ∧
    ReadsAs (scaleFile "fifth" [.exact (3 / 2), .exact 2]) "fifth" [3 / 2, 2] ∧
    ∃ qs : List ℚ,
      (Music.chord [beatOf (.ofInt 1), beatOf (.ofTerms 3 2 (by decide))]).standaloneScale "fifth"
        = scaleFile "fifth" (qs.map .exact) ∧ 2 ∈ qs := by
  have htitle : '\n' ∉ "fifth".toList := by decide
  have hexact : (Music.chord [beatOf (.ofInt 1), beatOf (.ofTerms 3 2 (by decide))]).Exact := by
    decide +kernel
  obtain ⟨hreads, hscales⟩ := readsAs_scaleFile
  obtain ⟨-, qs, -, htext, -, -, -, hoctave, -⟩ := hscales _ hexact
  have hunison : ∃ n ∈ (Music.chord [beatOf (.ofInt 1), beatOf (.ofTerms 3 2 (by decide))]).notes,
      ∃ k : ℤ, n.frequency.value = .exact (2 ^ k) :=
    ⟨beatOf (.ofInt 1), List.mem_cons_self, 0, by decide +kernel⟩
  exact ⟨htitle, hexact, hreads "fifth" [3 / 2, 2] htitle, qs, htext "fifth", hoctave.mpr hunison⟩

end JustIntonation
