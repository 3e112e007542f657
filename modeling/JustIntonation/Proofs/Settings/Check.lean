/-
JustIntonation/Proofs/Settings/Check.lean

Settings that pass their check are in range, all of them (`check_eq_ok`).
-/
import JustIntonation.Settings.Load
import JustIntonation.Proofs.Except

namespace JustIntonation.Settings

theorem checkPositive_eq_ok {k : Key} {x : Binary64} {u : Unit} :
    checkPositive k x = .ok u ↔ isPositive x = true := by
  rw [checkPositive]
  split_ifs with h <;> simp [h, refuse]

theorem checkProgram_eq_ok {program : Option UInt8} :
    checkProgram program = .ok () ↔ ∀ p ∈ program, 1 ≤ p ∧ p ≤ 128 := by
  cases program with
  | none => simp [checkProgram]
  | some p =>
    rw [checkProgram]
    split_ifs with h <;> simp [h, refuse]

/-- A refusal behind a condition is a guard. -/
theorem ite_refuse_eq_ok {α : Type} {p : Prop} [Decidable p] {k : Key} {flaw : Flaw}
    {f : Unit → Except Error α} {x : Except Error α} {a : α} :
    (if p then refuse k flaw >>= f else x) = .ok a ↔ ¬p ∧ x = .ok a :=
  ite_throw_eq_ok

/-- Settings pass their check if each of them is in its range. -/
theorem check_eq_ok {s : Settings} :
    s.check = .ok () ↔ isPositive s.t = true ∧ isPositive s.f = true ∧ s.bendRange ≠ 0 ∧
      s.divisions ≠ some 0 ∧ ∀ program ∈ s.programs, ∀ p ∈ program, 1 ≤ p ∧ p ≤ 128 := by
  simp only [check, bind_eq_ok, checkPositive_eq_ok, ite_refuse_eq_ok, forM_eq_ok,
    checkProgram_eq_ok, exists_and_left, exists_const, ne_eq]

end JustIntonation.Settings
