/-
JustIntonation/Proofs/Stateful.lean

Functions that carry a state and may fail, called at one thing after the other.

A computation starts from a state and ends with an answer or a failure, and
either way it leaves a state behind (`Stateful.runFrom`).  A function that is
called along a list either answers at every place (`Answers`) or fails at one
of them, and is then not called behind it (`Fails`); one of the two happens
from every state (`answers_or_fails`), and not both (`Answers.not_fails`).

Two things are made of such functions.  `recorded f` keeps a list of the calls
of `f`.  `andThen f g` calls `f` and then `g` at what `f` answered, each with
its own state; along a list it answers as `g` does along the answers of `f`
(`answers_andThen`).
-/
import JustIntonation.Proofs.Except

namespace JustIntonation

/-- Computations that carry a state and may fail; a failure keeps the state it has reached. -/
abbrev Stateful (σ ε : Type) : Type → Type := ExceptT ε (StateM σ)

namespace Stateful

variable {σ τ ε α β γ : Type}

/-- The answer or failure of a computation from a state, and the state that it leaves. -/
def runFrom (u : Stateful σ ε α) (s : σ) : Except ε α × σ := (ExceptT.run u).run s

/-- The computation that runs in a given way. -/
def ofRuns (runs : σ → Except ε α × σ) : Stateful σ ε α := ExceptT.mk runs

@[simp] theorem runFrom_ofRuns (runs : σ → Except ε α × σ) (s : σ) :
    runFrom (ofRuns runs) s = runs s := rfl

@[simp] theorem runFrom_pure (a : α) (s : σ) : runFrom (pure a : Stateful σ ε α) s = (.ok a, s) :=
  rfl

theorem runFrom_bind (u : Stateful σ ε α) (k : α → Stateful σ ε β) (s : σ) :
    runFrom (u >>= k) s = match runFrom u s with
      | (.ok a, t) => runFrom (k a) t
      | (.error e, t) => (.error e, t) := by
  show runFrom (ExceptT.bind u k) s = _
  simp only [runFrom, ExceptT.bind, ExceptT.run, ExceptT.mk, StateT.run, bind, StateT.bind]
  rcases u s with ⟨_ | _, _⟩ <;> rfl

theorem runFrom_bind_eq_ok {u : Stateful σ ε α} {k : α → Stateful σ ε β} {s s' : σ} {b : β} :
    runFrom (u >>= k) s = (.ok b, s') ↔
      ∃ a t, runFrom u s = (.ok a, t) ∧ runFrom (k a) t = (.ok b, s') := by
  rw [runFrom_bind]
  rcases runFrom u s with ⟨_ | _, _⟩ <;> simp

theorem runFrom_bind_eq_error {u : Stateful σ ε α} {k : α → Stateful σ ε β} {s s' : σ} {e : ε} :
    runFrom (u >>= k) s = (.error e, s') ↔ runFrom u s = (.error e, s') ∨
      ∃ a t, runFrom u s = (.ok a, t) ∧ runFrom (k a) t = (.error e, s') := by
  rw [runFrom_bind]
  rcases runFrom u s with ⟨_ | _, _⟩ <;> simp

/-- To make something of an answer cannot fail, and leaves the state alone. -/
theorem runFrom_bind_pure_eq_ok {u : Stateful σ ε α} {k : α → β} {s s' : σ} {b : β} :
    runFrom (u >>= fun a => pure (k a)) s = (.ok b, s') ↔
      ∃ a, runFrom u s = (.ok a, s') ∧ k a = b := by
  rw [runFrom_bind]
  rcases runFrom u s with ⟨_ | _, _⟩ <;> simp [and_comm]

theorem runFrom_bind_pure_eq_error {u : Stateful σ ε α} {k : α → β} {s s' : σ} {e : ε} :
    runFrom (u >>= fun a => pure (k a)) s = (.error e, s') ↔ runFrom u s = (.error e, s') := by
  rw [runFrom_bind]
  rcases runFrom u s with ⟨_ | _, _⟩ <;> simp

/-! ### Calls along a list -/

/-- Called at one thing after the other, each time from the state that the call before left, a
function answers everywhere. -/
inductive Answers (f : α → Stateful σ ε β) : σ → List α → List β → σ → Prop
  | nil (s : σ) : Answers f s [] [] s
  | cons {s t s' : σ} {x : α} {y : β} {xs : List α} {ys : List β}
      (answer : runFrom (f x) s = (.ok y, t)) (rest : Answers f t xs ys s') :
      Answers f s (x :: xs) (y :: ys) s'

/-- Called at one thing after the other, a function answers up to one of them, and there it
fails. -/
def Fails (f : α → Stateful σ ε β) (s : σ) (xs : List α) (e : ε) (s' : σ) : Prop :=
  ∃ before x after ys t, xs = before ++ x :: after ∧ Answers f s before ys t ∧
    runFrom (f x) t = (.error e, s')

section Calls

variable {f : α → Stateful σ ε β} {s s' : σ} {e : ε}

@[simp] theorem answers_nil_iff {ys : List β} : Answers f s [] ys s' ↔ ys = [] ∧ s' = s := by
  constructor
  · rintro ⟨⟩
    exact ⟨rfl, rfl⟩
  · rintro ⟨rfl, rfl⟩
    exact .nil s'

theorem answers_cons_iff {x : α} {xs : List α} {ys : List β} :
    Answers f s (x :: xs) ys s' ↔ ∃ y zs t, ys = y :: zs ∧ runFrom (f x) s = (.ok y, t) ∧
      Answers f t xs zs s' := by
  constructor
  · rintro (_ | ⟨answer, rest⟩)
    exact ⟨_, _, _, rfl, answer, rest⟩
  · rintro ⟨y, zs, t, rfl, answer, rest⟩
    exact .cons answer rest

theorem not_fails_nil : ¬ Fails f s [] e s' := by
  rintro ⟨before, x, after, ys, t, hsplit, -⟩
  simp at hsplit

theorem fails_cons_iff {x : α} {xs : List α} :
    Fails f s (x :: xs) e s' ↔ runFrom (f x) s = (.error e, s') ∨
      ∃ y t, runFrom (f x) s = (.ok y, t) ∧ Fails f t xs e s' := by
  constructor
  · rintro ⟨before, z, after, ys, t, hsplit, hbefore, hfailure⟩
    -- It fails at the first thing exactly if it answered at none.
    cases before with
    | nil =>
      obtain ⟨rfl, rfl⟩ := List.cons.inj hsplit
      obtain ⟨rfl, rfl⟩ := answers_nil_iff.mp hbefore
      exact .inl hfailure
    | cons w before =>
      obtain ⟨rfl, rfl⟩ := List.cons.inj hsplit
      obtain ⟨y, zs, t', rfl, hanswer, hrest⟩ := answers_cons_iff.mp hbefore
      exact .inr ⟨y, t', hanswer, before, z, after, zs, t, rfl, hrest, hfailure⟩
  · rintro (hfailure | ⟨y, t, hanswer, before, z, after, ys, t', rfl, hbefore, hfailure⟩)
    · exact ⟨[], x, xs, [], s, rfl, .nil s, hfailure⟩
    · exact ⟨x :: before, z, after, y :: ys, t', rfl, .cons hanswer hbefore, hfailure⟩

theorem answers_singleton {x : α} {y : β} :
    Answers f s [x] [y] s' ↔ runFrom (f x) s = (.ok y, s') := by
  simp [answers_cons_iff]

theorem fails_singleton {x : α} : Fails f s [x] e s' ↔ runFrom (f x) s = (.error e, s') := by
  simp [fails_cons_iff, not_fails_nil]

theorem Answers.length_eq {xs : List α} {ys : List β} (h : Answers f s xs ys s') :
    xs.length = ys.length := by
  induction h with
  | nil => rfl
  | cons _ _ ih => rw [List.length_cons, List.length_cons, ih]

/-- From one state there is one list of answers. -/
theorem Answers.unique {t : σ} {xs : List α} {ys zs : List β} (h : Answers f s xs ys s')
    (h' : Answers f s xs zs t) : ys = zs ∧ s' = t := by
  induction h generalizing zs with
  | nil =>
    obtain ⟨rfl, rfl⟩ := answers_nil_iff.mp h'
    exact ⟨rfl, rfl⟩
  | cons answer _ ih =>
    obtain ⟨z, zs, u, rfl, hz, hrest⟩ := answers_cons_iff.mp h'
    obtain ⟨hyz, rfl⟩ := Prod.mk.inj (answer.symm.trans hz)
    obtain ⟨rfl, rfl⟩ := ih hrest
    exact ⟨by rw [Except.ok.inj hyz], rfl⟩

theorem Answers.not_fails {t : σ} {xs : List α} {ys : List β} (h : Answers f s xs ys s') :
    ¬ Fails f s xs e t := by
  induction h with
  | nil => exact not_fails_nil
  | cons answer _ ih =>
    rw [fails_cons_iff, answer]
    rintro (hfailure | ⟨y, u, hanswer, hrest⟩)
    · cases hfailure
    · cases hanswer
      exact ih hrest

theorem answers_or_fails (f : α → Stateful σ ε β) (s : σ) (xs : List α) :
    (∃ ys s', Answers f s xs ys s') ∨ ∃ e s', Fails f s xs e s' := by
  induction xs generalizing s with
  | nil => exact .inl ⟨[], s, .nil s⟩
  | cons x xs ih =>
    rcases hx : runFrom (f x) s with ⟨e | y, t⟩
    · exact .inr ⟨e, t, fails_cons_iff.mpr (.inl hx)⟩
    · rcases ih t with ⟨ys, s', hrest⟩ | ⟨e, s', hrest⟩
      · exact .inl ⟨y :: ys, s', .cons hx hrest⟩
      · exact .inr ⟨e, s', fails_cons_iff.mpr (.inr ⟨y, t, hx, hrest⟩)⟩

theorem answers_append_iff {xs xs' : List α} {ys : List β} :
    Answers f s (xs ++ xs') ys s' ↔ ∃ zs zs' t, ys = zs ++ zs' ∧ Answers f s xs zs t ∧
      Answers f t xs' zs' s' := by
  induction xs generalizing s ys with
  | nil => simp
  | cons x xs ih =>
    simp only [List.cons_append, answers_cons_iff, ih]
    constructor
    · rintro ⟨y, _, t, rfl, hx, zs, zs', u, rfl, hxs, hrest⟩
      exact ⟨y :: zs, zs', u, rfl, ⟨y, zs, t, rfl, hx, hxs⟩, hrest⟩
    · rintro ⟨_, zs', u, rfl, ⟨y, zs, t, rfl, hx, hxs⟩, hrest⟩
      exact ⟨y, zs ++ zs', t, rfl, hx, zs, zs', u, rfl, hxs, hrest⟩

theorem fails_append_iff {xs xs' : List α} :
    Fails f s (xs ++ xs') e s' ↔ Fails f s xs e s' ∨
      ∃ ys t, Answers f s xs ys t ∧ Fails f t xs' e s' := by
  induction xs generalizing s with
  | nil => simp [not_fails_nil]
  | cons x xs ih =>
    simp only [List.cons_append, fails_cons_iff, answers_cons_iff, ih]
    constructor
    · rintro (hx | ⟨y, t, hx, hxs | ⟨ys, u, hxs, hrest⟩⟩)
      · exact .inl (.inl hx)
      · exact .inl (.inr ⟨y, t, hx, hxs⟩)
      · exact .inr ⟨y :: ys, u, ⟨y, ys, t, rfl, hx, hxs⟩, hrest⟩
    · rintro ((hx | ⟨y, t, hx, hxs⟩) | ⟨_, u, ⟨y, ys, t, rfl, hx, hxs⟩, hrest⟩)
      · exact .inl hx
      · exact .inr ⟨y, t, hx, .inl hxs⟩
      · exact .inr ⟨y, t, hx, .inr ⟨ys, u, hxs, hrest⟩⟩

end Calls

/-! ### Calls on record -/

/-- The same function, which also keeps a list of the things it was called at. -/
def recorded (f : α → Stateful σ ε β) (x : α) : Stateful (σ × List α) ε β :=
  ofRuns fun (s, called) => ((runFrom (f x) s).1, ((runFrom (f x) s).2, called ++ [x]))

section Recorded

variable {f : α → Stateful σ ε β} {s s' : σ} {called called' : List α}

theorem runFrom_recorded {x : α} {r : Except ε β} :
    runFrom (recorded f x) (s, called) = (r, (s', called')) ↔
      runFrom (f x) s = (r, s') ∧ called' = called ++ [x] := by
  rcases hx : runFrom (f x) s with ⟨_, _⟩
  simp [recorded, hx, and_assoc, eq_comm]

theorem answers_recorded {xs : List α} {ys : List β} :
    Answers (recorded f) (s, called) xs ys (s', called') ↔
      Answers f s xs ys s' ∧ called' = called ++ xs := by
  induction xs generalizing s called ys with
  | nil => simp [and_assoc]
  | cons x xs ih =>
    simp only [answers_cons_iff, Prod.exists, runFrom_recorded]
    constructor
    · rintro ⟨y, zs, t, _, rfl, ⟨hx, rfl⟩, hrest⟩
      obtain ⟨hxs, rfl⟩ := ih.mp hrest
      exact ⟨⟨y, zs, t, rfl, hx, hxs⟩, by simp⟩
    · rintro ⟨⟨y, zs, t, rfl, hx, hrest⟩, rfl⟩
      exact ⟨y, zs, t, _, rfl, ⟨hx, rfl⟩, ih.mpr ⟨hrest, by simp⟩⟩

theorem fails_recorded {xs : List α} {e : ε} :
    Fails (recorded f) (s, called) xs e (s', called') ↔
      ∃ before x after ys t, xs = before ++ x :: after ∧ Answers f s before ys t ∧
        runFrom (f x) t = (.error e, s') ∧ called' = called ++ (before ++ [x]) := by
  simp only [Fails, Prod.exists, answers_recorded, runFrom_recorded]
  constructor
  · rintro ⟨before, x, after, ys, t, _, hsplit, ⟨hbefore, rfl⟩, hfailure, rfl⟩
    exact ⟨before, x, after, ys, t, hsplit, hbefore, hfailure, List.append_assoc ..⟩
  · rintro ⟨before, x, after, ys, t, hsplit, hbefore, hfailure, rfl⟩
    exact ⟨before, x, after, ys, t, _, hsplit, ⟨hbefore, rfl⟩, hfailure,
      (List.append_assoc ..).symm⟩

end Recorded

/-! ### One function after another -/

/-- Call a function, and then another one at what it answered; each carries its own state. -/
def andThen (f : α → Stateful σ ε β) (g : β → Stateful τ ε γ) (x : α) : Stateful (σ × τ) ε γ :=
  ofRuns fun (s, t) => match runFrom (f x) s with
    | (.ok y, s') => ((runFrom (g y) t).1, (s', (runFrom (g y) t).2))
    | (.error e, s') => (.error e, (s', t))

section AndThen

variable {f : α → Stateful σ ε β} {g : β → Stateful τ ε γ} {s s' : σ} {t t' : τ}

theorem runFrom_andThen_eq_ok {x : α} {z : γ} :
    runFrom (andThen f g x) (s, t) = (.ok z, (s', t')) ↔
      ∃ y, runFrom (f x) s = (.ok y, s') ∧ runFrom (g y) t = (.ok z, t') := by
  rcases hx : runFrom (f x) s with ⟨_ | y, _⟩
  · simp [andThen, hx]
  · rcases hy : runFrom (g y) t with ⟨_, _⟩
    simp [andThen, hx, hy, and_left_comm]

theorem runFrom_andThen_eq_error {x : α} {e : ε} :
    runFrom (andThen f g x) (s, t) = (.error e, (s', t')) ↔
      runFrom (f x) s = (.error e, s') ∧ t' = t ∨
        ∃ y, runFrom (f x) s = (.ok y, s') ∧ runFrom (g y) t = (.error e, t') := by
  rcases hx : runFrom (f x) s with ⟨_ | y, _⟩
  · simp [andThen, hx, and_assoc, eq_comm]
  · rcases hy : runFrom (g y) t with ⟨_, _⟩
    simp [andThen, hx, hy, and_left_comm]

/-- Along a list the second function answers at what the first one answered. -/
theorem answers_andThen {xs : List α} {zs : List γ} :
    Answers (andThen f g) (s, t) xs zs (s', t') ↔
      ∃ ys, Answers f s xs ys s' ∧ Answers g t ys zs t' := by
  induction xs generalizing s t zs with
  | nil => simp [and_assoc, and_comm]
  | cons x xs ih =>
    simp only [answers_cons_iff, Prod.exists, runFrom_andThen_eq_ok, ih]
    constructor
    · rintro ⟨z, zs, u, v, rfl, ⟨y, hx, hy⟩, ys, hxs, hys⟩
      exact ⟨y :: ys, ⟨y, ys, u, rfl, hx, hxs⟩, .cons hy hys⟩
    · rintro ⟨_, ⟨y, ys, u, rfl, hx, hxs⟩, hrest⟩
      obtain ⟨z, zs, v, rfl, hy, hys⟩ := answers_cons_iff.mp hrest
      exact ⟨z, zs, u, v, rfl, ⟨y, hx, hy⟩, ys, hxs, hys⟩

/-- Where the first function answers everywhere, a failure of the second one is one of both. -/
theorem Answers.fails_andThen {xs : List α} {ys : List β} {e : ε} (h : Answers f s xs ys s')
    (hg : Fails g t ys e t') : ∃ u, Fails (andThen f g) (s, t) xs e (u, t') := by
  induction h generalizing t with
  | nil => exact absurd hg not_fails_nil
  | @cons s u _ x y xs ys hx _ ih =>
    obtain hy | ⟨z, v, hy, hys⟩ := fails_cons_iff.mp hg
    · exact ⟨u, fails_cons_iff.mpr (.inl (runFrom_andThen_eq_error.mpr (.inr ⟨y, hx, hy⟩)))⟩
    · obtain ⟨w, hxs⟩ := ih hys
      have hz := runFrom_andThen_eq_ok.mpr ⟨y, hx, hy⟩
      exact ⟨w, fails_cons_iff.mpr (.inr ⟨z, (u, v), hz, hxs⟩)⟩

/-- The first function fails at one of the things, and the second one at what the first one
answered at an earlier one. -/
def Overtaken (f : α → Stateful σ ε β) (g : β → Stateful τ ε γ) (s : σ) (t : τ) (xs : List α) :
    Prop :=
  ∃ before x after ys u e s' d t', xs = before ++ x :: after ∧ Answers f s before ys u ∧
    runFrom (f x) u = (.error e, s') ∧ Fails g t ys d t'

/-- A failure of the first function is one of both, unless the second one fails earlier. -/
theorem Fails.andThen_or_overtaken {xs : List α} {e : ε} (h : Fails f s xs e s') :
    (∃ t', Fails (andThen f g) (s, t) xs e (s', t')) ∨ Overtaken f g s t xs := by
  obtain ⟨before, x, after, ys, u, hsplit, hbefore, hx⟩ := h
  rcases answers_or_fails g t ys with ⟨zs, t', hys⟩ | ⟨d, t', hys⟩
  · have hanswers := answers_andThen.mpr ⟨ys, hbefore, hys⟩
    have hfailure : runFrom (andThen f g x) (u, t') = (.error e, (s', t')) :=
      runFrom_andThen_eq_error.mpr (.inl ⟨hx, rfl⟩)
    exact .inl ⟨t', before, x, after, zs, (u, t'), hsplit, hanswers, hfailure⟩
  · exact .inr ⟨before, x, after, ys, u, e, s', d, t', hsplit, hbefore, hx, hys⟩

end AndThen

end Stateful

end JustIntonation
