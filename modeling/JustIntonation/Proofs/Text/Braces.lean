/-
JustIntonation/Proofs/Text/Braces.lean

Braces that open and close in a text.

A scan counts how many braces are open (`depth`) and stops at one that closes
nothing.  It goes on from one text to the next (`depth_append`), and if it gets
to the end with no brace open then the braces are balanced, as counted in the
whole text and in what it begins with (`balanced_of_depth`).
-/
import Mathlib.Data.List.Basic

namespace JustIntonation.Text

/-- No text begins with more closing braces than opening ones, and in all there are as many of
them. -/
structure Balanced (cs : List Char) : Prop where
  front : ∀ front, front <+: cs → front.count '\x7d' ≤ front.count '\x7b'
  total : cs.count '\x7d' = cs.count '\x7b'

/-- How many braces are open behind a text if `n` are open in front of it; none if one of the
text closes nothing. -/
def depth (n : ℕ) : List Char → Option ℕ
  | [] => some n
  | c :: cs =>
    if c = '\x7b' then depth (n + 1) cs
    else if c = '\x7d' then if n = 0 then none else depth (n - 1) cs
    else depth n cs

theorem depth_append (n : ℕ) (cs ds : List Char) :
    depth n (cs ++ ds) = (depth n cs).bind fun m => depth m ds := by
  induction cs generalizing n with
  | nil => rfl
  | cons c cs ih =>
    rw [List.cons_append, depth, depth, ih, ih, ih]
    split_ifs <;> rfl

/-- A text that holds no braces opens and closes none. -/
theorem depth_of_not_mem {cs : List Char} (hopen : '\x7b' ∉ cs) (hclose : '\x7d' ∉ cs) (n : ℕ) :
    depth n cs = some n := by
  induction cs with
  | nil => rfl
  | cons c cs ih =>
    rw [List.mem_cons, not_or] at hopen hclose
    rw [depth, if_neg (Ne.symm hopen.1), if_neg (Ne.symm hclose.1), ih hopen.2 hclose.2]

/-- A character opens a brace, closes one of those that are open, or does neither. -/
theorem exists_of_depth_cons {c : Char} {cs : List Char} {n m : ℕ}
    (h : depth n (c :: cs) = some m) :
    ∃ k, k + [c].count '\x7d' = n + [c].count '\x7b' ∧ depth k cs = some m := by
  rw [depth] at h
  split_ifs at h with hopen hclose hzero
  · subst hopen
    exact ⟨n + 1, rfl, h⟩
  · subst hclose
    exact ⟨n - 1, Nat.succ_pred hzero, h⟩
  · refine ⟨n, ?_, h⟩
    rw [List.count_eq_zero.mpr (by simp [Ne.symm hclose]),
      List.count_eq_zero.mpr (by simp [Ne.symm hopen])]

/-- What the scan of a text says of the braces in it. -/
theorem count_of_depth {cs : List Char} : ∀ {n m : ℕ}, depth n cs = some m →
    (∀ front, front <+: cs → front.count '\x7d' ≤ n + front.count '\x7b') ∧
    m + cs.count '\x7d' = n + cs.count '\x7b' := by
  induction cs with
  | nil =>
    rintro n m ⟨⟩
    refine ⟨fun front hfront => ?_, rfl⟩
    rw [List.prefix_nil.mp hfront]
    exact Nat.zero_le _
  | cons c cs ih =>
    intro n m h
    obtain ⟨k, hk, h⟩ := exists_of_depth_cons h
    obtain ⟨hfront, htotal⟩ := ih h
    have hcount : ∀ (b : Char) (ds : List Char),
        (c :: ds).count b = [c].count b + ds.count b := fun _ _ => @List.count_append _ _ _ [c] _
    refine ⟨?_, ?_⟩
    · intro front hprefix
      obtain rfl | ⟨rest, rfl, hrest⟩ := List.prefix_cons_iff.mp hprefix
      · exact Nat.zero_le _
      · have hle := hfront rest hrest
        rw [hcount '\x7d', hcount '\x7b']
        omega
    · rw [hcount '\x7d', hcount '\x7b']
      omega

theorem balanced_of_depth {cs : List Char} (h : depth 0 cs = some 0) : Balanced cs := by
  obtain ⟨hfront, htotal⟩ := count_of_depth h
  simp only [Nat.zero_add] at hfront htotal
  exact ⟨hfront, htotal⟩

/-! ### Lines -/

/-- How many braces are open behind some lines. -/
def depthOfLines (n : ℕ) (lines : List String) : Option ℕ :=
  lines.foldlM (fun n line => depth n line.toList) n

theorem depthOfLines_cons (n : ℕ) (line : String) (lines : List String) :
    depthOfLines n (line :: lines)
      = (depth n line.toList).bind fun m => depthOfLines m lines := List.foldlM_cons

theorem depthOfLines_append (n : ℕ) (lines more : List String) :
    depthOfLines n (lines ++ more)
      = (depthOfLines n lines).bind fun m => depthOfLines m more := List.foldlM_append

/-- Line feeds between the lines do not matter. -/
theorem depth_intercalate (n : ℕ) (lines : List String) :
    depth n ("\n".intercalate lines).toList = depthOfLines n lines := by
  induction lines generalizing n with
  | nil => rfl
  | cons line lines ih =>
    rw [depthOfLines_cons]
    cases lines with
    | nil =>
      rw [String.intercalate_singleton]
      exact (Option.bind_fun_some _).symm
    | cons next lines =>
      have hfeed : ∀ m, depth m "\n".toList = some m :=
        depth_of_not_mem (by decide) (by decide)
      rw [String.intercalate_cons_cons, String.toList_append, String.toList_append,
        List.append_assoc, depth_append]
      congr 1
      funext m
      rw [depth_append, hfeed, Option.bind_some, ih]

/-- Lines that each leave open what was open do so together. -/
theorem depthOfLines_of_forall {n : ℕ} {lines : List String}
    (h : ∀ line ∈ lines, depth n line.toList = some n) : depthOfLines n lines = some n := by
  induction lines with
  | nil => rfl
  | cons line lines ih =>
    obtain ⟨hline, hlines⟩ := List.forall_mem_cons.mp h
    rw [depthOfLines_cons, hline, Option.bind_some, ih hlines]

/-- So do blocks of lines. -/
theorem depthOfLines_flatten {n : ℕ} {blocks : List (List String)}
    (h : ∀ block ∈ blocks, depthOfLines n block = some n) :
    depthOfLines n blocks.flatten = some n := by
  induction blocks with
  | nil => rfl
  | cons block blocks ih =>
    obtain ⟨hblock, hblocks⟩ := List.forall_mem_cons.mp h
    rw [List.flatten_cons, depthOfLines_append, hblock, Option.bind_some, ih hblocks]

end JustIntonation.Text
