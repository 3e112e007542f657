/-
JustIntonation/Proofs/Midi/VariableLength.lean

Streams of variable-length quantities.

A quantity itself says where it ends, so quantities that stand one behind
the other can be read back with nothing between them.  The reader of files
refuses a quantity of more than four bytes; the reader here takes seven bits
of each byte for as long as the top bit is set, however many bytes there are.

Such a reader takes a number also from longer forms: the bytes 0x80 in front
of a quantity change nothing.  There are no other forms
(`run_septets_eq_some_iff`), so the written form is the shortest, and it does
not begin with 0x80.

Main result: a list of numbers is read back from its quantities, the bytes
behind them left alone, and each quantity is as short as it can be
(`septets_readBack`).
-/
import JustIntonation.Proofs.Midi.Decoding

namespace JustIntonation.Midi

namespace Reader

/-- Seven bits of each byte, put behind the bits of `n`, up to a byte with its top bit clear. -/
def septetsFrom (n : Nat) : Reader Nat
  | [] => none
  | b :: rest =>
    if b.toNat < 128 then some (128 * n + b.toNat, rest)
    else septetsFrom (128 * n + (b.toNat - 128)) rest

def septets : Reader Nat := septetsFrom 0

/-- A number of quantities that stand one behind the other. -/
def septetList : Nat → Reader (List Nat)
  | 0 => return []
  | count + 1 => do
    let n ← septets
    let ns ← septetList count
    return n :: ns

end Reader

open Reader

/-! ### Reading one quantity -/

theorem run_septetsFrom_leading {group : Nat} (h : group < 128) (n : Nat) (rest : List UInt8) :
    (septetsFrom n).run (UInt8.ofNat (128 + group) :: rest)
      = (septetsFrom (128 * n + group)).run rest := by
  have hbyte : (UInt8.ofNat (128 + group)).toNat = 128 + group := toNat_ofNat_of_lt (by omega)
  have htop : ¬ 128 + group < 128 := by omega
  rw [StateT.run, septetsFrom, hbyte, if_neg htop, Nat.add_sub_cancel_left]
  rfl

theorem run_septetsFrom_last {group : Nat} (h : group < 128) (n : Nat) (rest : List UInt8) :
    (septetsFrom n).run (UInt8.ofNat group :: rest) = some (128 * n + group, rest) := by
  have hbyte : (UInt8.ofNat group).toNat = group := toNat_ofNat_of_lt (by omega)
  rw [StateT.run, septetsFrom, hbyte, if_pos h]

/-- The leading bytes of a quantity give the number that they were made of. -/
theorem run_septetsFrom_leadingGroups (n : Nat) (last : List UInt8) :
    (septetsFrom 0).run (leadingGroups n last) = (septetsFrom n).run last := by
  induction n using Nat.strongRecOn generalizing last with
  | ind n ih =>
    by_cases hn : n = 0
    · subst hn
      rw [leadingGroups, if_pos rfl]
    · have hgroup : n % 128 < 128 := Nat.mod_lt n (Nat.succ_pos 127)
      rw [leadingGroups, if_neg hn, ih (n / 128) (by omega), run_septetsFrom_leading hgroup,
        Nat.div_add_mod]

/-- A quantity of any length, read back. -/
theorem run_septets (n : Nat) (rest : List UInt8) :
    septets.run (variableLength n ++ rest) = some (n, rest) := by
  have hgroup : n % 128 < 128 := Nat.mod_lt n (Nat.succ_pos 127)
  rw [variableLength, leadingGroups_append, septets, run_septetsFrom_leadingGroups,
    List.singleton_append, run_septetsFrom_last hgroup, Nat.div_add_mod]

theorem run_septetList (values : List Nat) (rest : List UInt8) :
    (septetList values.length).run (values.flatMap variableLength ++ rest)
      = some (values, rest) := by
  induction values with
  | nil => rfl
  | cons n values ih =>
    rw [List.length_cons, septetList, StateT.run_bind, List.flatMap_cons, List.append_assoc,
      run_septets, Option.bind_eq_bind, Option.bind_some, StateT.run_bind, ih]
    rfl

/-! ### The forms of a number -/

/-- Bytes that are read as a number behind the bits of `n`.  Written behind the leading bytes of
`n`, they are the quantity of that number, but for idle bytes in front. -/
theorem leadingGroups_of_septetsFrom {bytes : List UInt8} : ∀ {n m : Nat} {rest : List UInt8},
    (septetsFrom n).run bytes = some (m, rest) → ∃ idle,
      leadingGroups n bytes = List.replicate idle 0x80 ++ (variableLength m ++ rest) := by
  induction bytes with
  | nil =>
    intro n m rest h
    cases h
  | cons b bytes ih =>
    intro n m rest h
    have hb : UInt8.ofNat b.toNat = b := UInt8.ofNat_toNat
    have hbound := b.toNat_lt
    rw [StateT.run, septetsFrom] at h
    split_ifs at h with hlast
    · obtain ⟨rfl, rfl⟩ := Prod.mk.inj (Option.some.inj h)
      have hdiv : (128 * n + b.toNat) / 128 = n := by omega
      have hmod : (128 * n + b.toNat) % 128 = b.toNat := by omega
      refine ⟨0, ?_⟩
      rw [variableLength, leadingGroups_append, hdiv, hmod, hb]
      rfl
    · obtain ⟨idle, hidle⟩ := ih h
      by_cases hzero : 128 * n + (b.toNat - 128) = 0
      · -- Nothing but zero bits up to here, so this byte is one more that is idle.
        have hn : n = 0 := by omega
        have hbyte : b = 0x80 := by
          rw [← hb, show b.toNat = 128 by omega]
          rfl
        rw [hzero, leadingGroups, if_pos rfl] at hidle
        exact ⟨idle + 1, by rw [hn, leadingGroups, if_pos rfl, hidle, hbyte]; rfl⟩
      · refine ⟨idle, ?_⟩
        have hdiv : (128 * n + (b.toNat - 128)) / 128 = n := by omega
        have hmod : 128 + (128 * n + (b.toNat - 128)) % 128 = b.toNat := by omega
        rw [← hidle, leadingGroups.eq_def _ bytes, if_neg hzero, hdiv, hmod, hb]

theorem run_septets_replicate (idle : Nat) (bytes : List UInt8) :
    septets.run (List.replicate idle 0x80 ++ bytes) = septets.run bytes := by
  induction idle with
  | zero => rfl
  | succ idle ih =>
    rw [← ih, List.replicate_succ, List.cons_append]
    exact run_septetsFrom_leading (Nat.succ_pos 127) 0 _

/-- The forms of a number: its quantity, behind any number of idle bytes. -/
theorem run_septets_eq_some_iff {bytes rest : List UInt8} {n : Nat} :
    septets.run bytes = some (n, rest) ↔
      ∃ idle, bytes = List.replicate idle 0x80 ++ (variableLength n ++ rest) := by
  constructor
  · intro h
    obtain ⟨idle, hidle⟩ := leadingGroups_of_septetsFrom h
    rw [leadingGroups, if_pos rfl] at hidle
    exact ⟨idle, hidle⟩
  · rintro ⟨idle, rfl⟩
    rw [run_septets_replicate, run_septets]

/-- No form of a number is shorter than its quantity. -/
theorem length_variableLength_le_of_run {bytes : List UInt8} {n : Nat}
    (h : septets.run bytes = some (n, [])) : (variableLength n).length ≤ bytes.length := by
  obtain ⟨idle, rfl⟩ := run_septets_eq_some_iff.mp h
  rw [List.append_nil, List.length_append]
  exact Nat.le_add_left _ _

/-- A quantity has no idle byte: without it the rest would be a shorter form. -/
theorem head?_variableLength_ne (n : Nat) : (variableLength n).head? ≠ some 0x80 := by
  intro hhead
  obtain ⟨bytes, hbytes⟩ := List.head?_eq_some_iff.mp hhead
  have hrun := run_septets n []
  rw [List.append_nil, hbytes] at hrun
  have hshort := length_variableLength_le_of_run ((run_septets_replicate 1 bytes).symm.trans hrun)
  rw [hbytes, List.length_cons] at hshort
  exact Nat.not_succ_le_self _ hshort

/-! ### Lengths -/

theorem lt_length_leadingGroups {groups : Nat} : ∀ {n : Nat} (last : List UInt8),
    128 ^ groups ≤ n → groups + last.length < (leadingGroups n last).length := by
  induction groups with
  | zero =>
    intro n last h
    have hn : n ≠ 0 := Nat.one_le_iff_ne_zero.mp h
    rw [leadingGroups, if_neg hn, ← List.nil_append (_ :: last), ← leadingGroups_append,
      List.length_append, List.length_cons]
    omega
  | succ groups ih =>
    intro n last h
    have hdiv : 128 ^ groups ≤ n / 128 := by
      rw [Nat.le_div_iff_mul_le (by decide), ← pow_succ]
      exact h
    have hn : n ≠ 0 := by
      rintro rfl
      exact absurd h (Nat.not_le.mpr (Nat.pow_pos (by decide)))
    have hlength := ih (UInt8.ofNat (128 + n % 128) :: last) hdiv
    rw [List.length_cons] at hlength
    rw [leadingGroups, if_neg hn]
    omega

/-- Four bytes hold the numbers of 28 bits and no others. -/
theorem length_variableLength_le_four_iff (n : Nat) :
    (variableLength n).length ≤ 4 ↔ n ≤ maxVariableLength := by
  have hbits : n / 128 < 128 ^ 3 ↔ n ≤ maxVariableLength := by
    rw [maxVariableLength]
    omega
  rw [variableLength, ← hbits]
  constructor
  · intro hshort
    by_contra hlarge
    have hlong := lt_length_leadingGroups [UInt8.ofNat (n % 128)] (Nat.not_lt.mp hlarge)
    rw [List.length_singleton] at hlong
    omega
  · exact length_leadingGroups_le [UInt8.ofNat (n % 128)]

/-- Numbers are read back from their quantities, which are followed by whatever it may be; and
the quantity of a number is its shortest form. -/
theorem septets_readBack (values : List Nat) (rest : List UInt8) (n : Nat) :
    (septetList values.length).run (values.flatMap variableLength ++ rest)
      = some (values, rest) ∧
    (∀ bytes, septets.run bytes = some (n, []) → (variableLength n).length ≤ bytes.length) ∧
    (variableLength n).head? ≠ some 0x80 ∧
    ((variableLength n).length ≤ 4 ↔ n ≤ maxVariableLength) :=
  ⟨run_septetList values rest, fun _ h => length_variableLength_le_of_run h,
    head?_variableLength_ne n, length_variableLength_le_four_iff n⟩

/-- Numbers at the borders between lengths, up to 32 bits; and 128 in one byte more than its
quantity has. -/
theorem septets_readBack_borders :
    (septetList 6).run ([0, 0x7F, 0x80, 0x0FFFFFFF, 0x10000000, 0xFFFFFFFF].flatMap variableLength
      ++ [0x80]) = some ([0, 0x7F, 0x80, 0x0FFFFFFF, 0x10000000, 0xFFFFFFFF], [0x80]) ∧
    septets.run [0x80, 0x81, 0x00] = some (0x80, []) ∧ (variableLength 0x80).length ≤ 3 ∧
    (variableLength 0x80).head? ≠ some 0x80 ∧
    ((variableLength 0x80).length ≤ 4 ↔ 0x80 ≤ maxVariableLength) := by
  obtain ⟨hread, hshortest, hhead, hfour⟩ :=
    septets_readBack [0, 0x7F, 0x80, 0x0FFFFFFF, 0x10000000, 0xFFFFFFFF] [0x80] 0x80
  have hlonger : septets.run [0x80, 0x81, 0x00] = some (0x80, []) := rfl
  exact ⟨hread, hlonger, hshortest _ hlonger, hhead, hfour⟩

end JustIntonation.Midi
