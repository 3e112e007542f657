/-
JustIntonation/Proofs/Tuning/Transposition.lean

The keyboard of a piece that is transposed as a whole.

If every frequency is multiplied by one positive number, so are the pitches,
and they keep their order (`MadeOf.eq_map`).  A keyboard is made of the pitches
through their places and through their quotients by the lowest, and neither
changes; only the frequency of the reference is that of the new lowest pitch
(`Keyboard.Transposed`).
-/
import JustIntonation.Proofs.Music.Traversal
import JustIntonation.Proofs.Tuning.Retuning
import Mathlib.Data.List.Sort

namespace JustIntonation

open Tuning

/-- The second note has `q` times the frequency of the first, and all else is the same. -/
structure Note.Transposed (q : ℚ) (n n' : Note) : Prop where
  frequency : ∃ a, n.frequency.value = .exact a ∧ n'.frequency.value = .exact (q * a)
  duration : n'.duration = n.duration
  volume : n'.volume = n.volume

theorem Note.Transposed.isRest_eq {q : ℚ} {n n' : Note} (h : n.Transposed q n') (hq : q ≠ 0) :
    n'.isRest = n.isRest := by
  obtain ⟨a, ha, ha'⟩ := h.frequency
  rw [Note.isRest, Note.isRest, ha, ha', Number.isZero, Number.isZero, decide_eq_decide,
    mul_eq_zero_iff_left hq]

/-! ### Pitches -/

section Pitches

variable {q : ℚ} {p p' : Piece}

theorem Piece.Exact.transposed (h : p.Exact) (hq : 0 ≤ q)
    (halike : p.Alike (Note.Transposed q) p') : p'.Exact := by
  intro n' hn'
  obtain ⟨n, hn, htransposed⟩ := halike.exists_left hn'
  obtain ⟨a, ha, ha'⟩ := htransposed.frequency
  obtain ⟨b, hb, hb'⟩ := h n hn
  obtain rfl := Number.exact.inj (ha.symm.trans hb')
  exact ⟨q * a, mul_nonneg hq hb, ha'⟩

theorem Piece.pitches_transposed (hq : q ≠ 0) (halike : p.Alike (Note.Transposed q) p') :
    p'.pitches = p.pitches.image (q * ·) := by
  ext b
  rw [Finset.mem_image, Piece.mem_pitches]
  constructor
  · rintro ⟨hb, n', hn', hvalue⟩
    obtain ⟨n, hn, htransposed⟩ := halike.exists_left hn'
    obtain ⟨a, ha, ha'⟩ := htransposed.frequency
    obtain rfl := Number.exact.inj (ha'.symm.trans hvalue)
    exact ⟨a, Piece.mem_pitches.mpr ⟨right_ne_zero_of_mul hb, n, hn, ha⟩, rfl⟩
  · rintro ⟨a, ha, rfl⟩
    obtain ⟨hne, n, hn, hvalue⟩ := Piece.mem_pitches.mp ha
    obtain ⟨n', hn', htransposed⟩ := halike.exists_right hn
    obtain ⟨b, hb, hb'⟩ := htransposed.frequency
    obtain rfl := Number.exact.inj (hb.symm.trans hvalue)
    exact ⟨mul_ne_zero hq hne, n', hn', hb'⟩

end Pitches

/-! ### Keyboards -/

namespace Tuning.Keyboard

/-- The second keyboard is the first for frequencies that are `q` times as high. -/
structure Transposed (q : ℚ) (k k' : Keyboard) : Prop where
  entries : k'.entries = k.entries
  size : k'.size = k.size
  keys : ∃ qs : List ℚ, k.keys = (qs.map Number.exact).zipIdx ∧
    k'.keys = ((qs.map (q * ·)).map Number.exact).zipIdx

/-- The quotients by the lowest pitch do not change. -/
theorem relative_transposed {q : ℚ} (hq : q ≠ 0) {qs : List ℚ} (hqs : ∀ a ∈ qs, a ≠ 0) :
    relative ((qs.map (q * ·)).map Number.exact)
        (((qs.map (q * ·)).map Number.exact).head?.getD .one)
      = relative (qs.map Number.exact) ((qs.map Number.exact).head?.getD .one) := by
  cases qs with
  | nil => rfl
  | cons lowest rest =>
    have hlowest : lowest ≠ 0 := hqs lowest List.mem_cons_self
    have hquotients : ((lowest :: rest).map (q * ·)).map (· / (q * lowest))
        = (lowest :: rest).map (· / lowest) := by
      rw [List.map_map]
      exact List.map_congr_left fun a _ => mul_div_mul_left a lowest hq
    show relative _ (.exact (q * lowest)) = relative _ (.exact lowest)
    rw [relative, relative, map_div_exact _ (mul_ne_zero hq hlowest), map_div_exact _ hlowest,
      hquotients]

namespace Transposed

variable {q : ℚ} {k k' : Keyboard}

/-- A frequency that is multiplied keeps its key. -/
theorem find?_eq (h : Transposed q k k') (hq : q ≠ 0) (a : ℚ) :
    k'.keys.find? (.exact (q * a)) = k.keys.find? (.exact a) := by
  obtain ⟨qs, hk, hk'⟩ := h.keys
  have hsame (b : ℚ) : (Number.exact (q * a)).same (.exact (q * b))
      = (Number.exact a).same (.exact b) := by
    rw [Bool.eq_iff_iff, Number.same_iff, Number.same_iff, Number.place_exact_inj,
      Number.place_exact_inj, mul_right_inj' hq]
  rw [hk, hk', List.zipIdx_map, List.zipIdx_map, List.zipIdx_map, List.map_map]
  simp only [KeyMap.find?, List.find?_map, Function.comp_def, Prod.map, id_eq, hsame,
    Option.map_map]

theorem scaleText_eq (h : Transposed q k k') (title : String) :
    k'.scaleText title = k.scaleText title := by
  rw [scaleText, scaleText, h.entries]

/-- Of the mapping only the sixth line changes, that of the reference. -/
theorem splitOn_mappingText_eq (h : Transposed q k k') : k'.mappingText.toList.splitOn '\n'
    = (k.mappingText.toList.splitOn '\n').set 5 (k'.reference.format Binary64.general).toList := by
  rw [splitOn_mappingText, splitOn_mappingText, mappingFields, mappingFields, mappingDegrees,
    mappingDegrees, h.size]
  rfl

end Transposed

end Tuning.Keyboard

/-! ### The keyboard of a piece -/

section Keyboard

variable {q : ℚ} {p p' : Piece} {f0 : Binary64} {k k' : Keyboard} {qs qs' : List ℚ}

/-- The pitches that are multiplied stay in their order. -/
theorem MadeOf.eq_map (h : MadeOf f0 p k qs) (h' : MadeOf f0 p' k' qs') (hq : 0 < q)
    (halike : p.Alike (Note.Transposed q) p') : qs' = qs.map (q * ·) := by
  have hascending : (qs.map (q * ·)).Pairwise (· < ·) := by
    rw [List.pairwise_map]
    exact h.ascending.imp fun hab => mul_lt_mul_of_pos_left hab hq
  apply h'.ascending.eq_of_mem_iff hascending
  intro b
  rw [← h'.mem_pitches, Piece.pitches_transposed hq.ne' halike, Finset.mem_image, List.mem_map]
  simp only [h.mem_pitches]

theorem MadeOf.transposed (h : MadeOf f0 p k qs) (h' : MadeOf f0 p' k' qs') (hq : 0 < q)
    (halike : p.Alike (Note.Transposed q) p') : k.Transposed q k' := by
  obtain rfl := h.eq_map h' hq halike
  constructor
  case entries =>
    rw [h.entries, h'.entries]
    exact Keyboard.relative_transposed hq.ne'
      fun a ha => (Piece.mem_pitches.mp (h.mem_pitches.mpr ha)).1
  case size => rw [h.size, h'.size, List.length_map]
  case keys => exact ⟨qs, h.keys, h'.keys⟩

/-- A transposed piece has a transposed keyboard, or as many pitches too many. -/
theorem Piece.Exact.keyboard_transposed (h : p.Exact) (hq : 0 < q)
    (halike : p.Alike (Note.Transposed q) p') (f0 : Binary64) :
    (∃ fault, Music.keyboard f0 (.piece p) = .error fault ∧
      Music.keyboard f0 (.piece p') = .error fault) ∨
    ∃ k k', Music.keyboard f0 (.piece p) = .ok k ∧ Music.keyboard f0 (.piece p') = .ok k' ∧
      k.Transposed q k' := by
  have hcard : p'.pitches.card = p.pitches.card := by
    rw [Piece.pitches_transposed hq.ne' halike]
    exact Finset.card_image_of_injective _ (mul_right_injective₀ hq.ne')
  obtain ⟨hmany, hfew⟩ := h.keyboard_eq f0
  obtain ⟨hmany', hfew'⟩ := (h.transposed hq.le halike).keyboard_eq f0
  rw [hcard] at hmany' hfew'
  rcases Nat.lt_or_ge keyCount p.pitches.card with hcount | hcount
  · exact .inl ⟨_, hmany hcount, hmany' hcount⟩
  · obtain ⟨k, qs, hk, hmade⟩ := hfew hcount
    obtain ⟨k', qs', hk', hmade'⟩ := hfew' hcount
    exact .inr ⟨k, k', hk, hk', hmade.transposed hmade' hq halike⟩

end Keyboard

end JustIntonation
