/-
JustIntonation/Proofs/Temperament/Idempotence.lean

Tempering what is tempered already.

A tempered frequency is a number of steps in a number of divisions, and its
logarithm is taken from these: that of two is one, which changes nothing, so
it is the quotient of steps and divisions, rounded.  Times the divisions, and
rounded again, that need not be the steps any more.  But for fewer than `2⁵⁰`
steps it is off by a quarter of a step at most, and the nearest whole number
is the one there was (`steps_log2_power`).

Main result: `temper_temper`.
-/
import JustIntonation.Proofs.Binary64.Error
import JustIntonation.Proofs.Temperament.Frame

namespace JustIntonation

open Binary64

/-! ### Steps -/

namespace Temperament

section Steps

variable {divisions : ℕ} (hpos : 0 < divisions) (hlt : divisions < 2 ^ 32) {s : ℤ}
  (hs : |s| < 2 ^ 50)
include hpos hlt hs

/-- Steps that are divided, rounded, multiplied back and rounded again are the same steps. -/
theorem roundEven_mul_div :
    (ofInt divisions * (ofInt 1 * (ofInt s / ofInt divisions))).roundEven.toInt64 = s := by
  have habs : s.natAbs < 2 ^ 50 := by
    rw [Int.abs_eq_natAbs] at hs
    omega
  have hquotient : (ofInt s / ofInt divisions).isFinite = true := by
    rw [ofInt_div_ofInt hpos (by omega) (by omega)]
    exact isFinite_rounded_div hpos _ (by omega)
  obtain ⟨hfinite, herror⟩ := toRat_mul_div hpos habs hlt
  rw [ofInt_one_mul hquotient, toInt64_roundEven hfinite,
    nearestEven_eq_of_abs_lt (herror.trans_lt (by norm_num)), clampInt64, minInt64, maxInt64]
  omega

/-- The steps of a tempered frequency are those it was tempered to. -/
theorem steps_log2_power : steps divisions (Power.log2 ⟨2, s, divisions⟩) = s := by
  have htwo : (ofInt 2).log2 = ofInt 1 := by decide +kernel
  rw [steps, Power.log2, Power.exponent, htwo]
  exact roundEven_mul_div hpos hlt hs

end Steps

end Temperament

open Temperament

/-! ### Notes and pieces -/

section Tempered

variable {divisions : ℕ} {n m : Note}

theorem Note.temper_power (hpos : 0 < divisions) (hlt : divisions < 2 ^ 32) {s : ℤ}
    (hs : |s| < 2 ^ 50) (hn : n.frequency = .power ⟨2, s, divisions⟩) :
    n.temper divisions = .ok n := by
  have hsteps : frequencySteps divisions n.frequency = some s := by
    rw [hn]
    show some (steps divisions (Power.log2 ⟨2, s, divisions⟩)) = some s
    rw [steps_log2_power hpos hlt hs]
  rw [temper, if_neg hpos.ne', hsteps]
  obtain ⟨frequency, duration, volume⟩ := n
  obtain rfl : frequency = .power ⟨2, s, divisions⟩ := hn
  rfl

/-- What tempering makes of a note, it leaves alone. -/
theorem Note.temper_of_temper (hpos : 0 < divisions) (hlt : divisions < 2 ^ 32)
    (hsteps : ∀ s ∈ frequencySteps divisions n.frequency, |s| < 2 ^ 50)
    (h : n.temper divisions = .ok m) : m.temper divisions = .ok m := by
  have htemper := h
  rw [temper, if_neg hpos.ne'] at h
  cases hfound : frequencySteps divisions n.frequency with
  | some s =>
    rw [hfound] at h
    obtain rfl := Except.ok.inj h
    exact Note.temper_power hpos hlt (hsteps s hfound) rfl
  | none =>
    rw [hfound] at h
    obtain rfl := Except.ok.inj h
    exact htemper

/-- Tempering is idempotent as long as there are fewer than `2⁵⁰` steps.  The quotient of steps and
divisions gives the steps again, for all that it is rounded; so a note that stands on steps of the
division stays as it is, and so does a tempered piece with all that is in it. -/
theorem temper_temper (hpos : 0 < divisions) (hlt : divisions < 2 ^ 32) :
    (∀ s : ℤ, |s| < 2 ^ 50 →
      (ofInt divisions * (ofInt 1 * (ofInt s / ofInt divisions))).roundEven.toInt64 = s ∧
      ∀ n : Note, n.frequency = .power ⟨2, s, divisions⟩ → n.temper divisions = .ok n) ∧
    ∀ p : Piece,
      (∀ n ∈ (Music.piece p).notes, ∀ s ∈ frequencySteps divisions n.frequency, |s| < 2 ^ 50) →
      ∃ tempered, p.temper (some divisions) = .ok tempered ∧
        tempered.temper (some divisions) = .ok tempered := by
  refine ⟨fun s hs => ⟨roundEven_mul_div hpos hlt hs, fun n => n.temper_power hpos hlt hs⟩, ?_⟩
  intro p hp
  obtain ⟨tempered, htempered⟩ := Piece.exists_mapNotes_eq_ok (p := p)
    fun n _ => Note.exists_temper hpos.ne' n
  refine ⟨tempered, htempered, Piece.mapNotes_eq_self fun m hm => ?_⟩
  obtain ⟨n, hn, hnm⟩ := (Piece.alike_mapNotes htempered).exists_left hm
  exact Note.temper_of_temper hpos hlt (hp n hn) hnm

/-- An octave as a product beside a prime, and then a rest. -/
def octaveAndRest : Piece :=
  ⟨[⟨[.chord [⟨.product ⟨[.ofInt 1, .ofInt 2]⟩, .one, .one⟩,
      ⟨.ratio (.ofInt 1), .one, .one⟩],
    .note (.rest .one)]⟩]⟩

theorem temper_temper_octaveAndRest : 0 < 31 ∧ 31 < 2 ^ 32 ∧ |(-18 : ℤ)| < 2 ^ 50 ∧
    Note.temper 31 ⟨.power ⟨2, -18, 31⟩, .one, .one⟩ = .ok ⟨.power ⟨2, -18, 31⟩, .one, .one⟩ ∧
    (∀ n ∈ (Music.piece octaveAndRest).notes, ∀ s ∈ frequencySteps 31 n.frequency, |s| < 2 ^ 50) ∧
    ∃ tempered, octaveAndRest.temper (some 31) = .ok tempered ∧
      tempered.temper (some 31) = .ok tempered := by
  have hsteps : (Music.piece octaveAndRest).notes.map (fun n => frequencySteps 31 n.frequency)
      = [some 31, some 0, none] := by decide +kernel
  have hsmall : ∀ n ∈ (Music.piece octaveAndRest).notes,
      ∀ s ∈ frequencySteps 31 n.frequency, |s| < 2 ^ 50 := by
    intro n hn s hs
    have hmem : some s ∈ [some 31, some 0, none] := by
      rw [← hsteps, ← Option.mem_def.mp hs]
      exact List.mem_map_of_mem hn
    simp only [List.mem_cons, Option.some.injEq, List.not_mem_nil, or_false, reduceCtorEq] at hmem
    obtain rfl | rfl := hmem
    · decide
    · decide
  obtain ⟨hpower, hpiece⟩ := @temper_temper 31 (by decide) (by decide)
  exact ⟨by decide, by decide, by decide, (hpower (-18) (by decide)).2 _ rfl, hsmall,
    hpiece octaveAndRest hsmall⟩

end Tempered

end JustIntonation
