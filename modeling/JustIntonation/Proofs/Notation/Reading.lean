/-
JustIntonation/Proofs/Notation/Reading.lean

What a parser does with a text that begins as it should.

`Reads p cs rest good` says that the parser takes exactly `cs` off a text
that goes on with `rest`, wherever the text starts, and gives a good value;
`Misses p cs` says that it refuses the text without having committed.  Both
pass through every combinator, so a proof about a grammar follows the grammar
and opens no parser: a sequence reads what its members read one behind the
other (`Reads.bind`), a choice reads what the first reads, or the second
where the first misses, and a repetition reads as many pieces as there are
(`ReadsAll.many`), provided that the parser misses what stands behind them.
-/
import JustIntonation.Notation.Parser
import JustIntonation.Proofs.Text.Digits

namespace JustIntonation.Notation

variable {α β : Type}

/-- The parser takes `cs` off a text that goes on with `rest`, and its value is good. -/
def Reads (p : Parser α) (cs rest : List Char) (good : α → Prop) : Prop :=
  ∀ offset, ∃ a stop, p ⟨offset, cs ++ rest⟩ = .done a ⟨stop, rest⟩ ∧ good a

/-- The parser refuses the text, and another reading may be tried. -/
def Misses (p : Parser α) (cs : List Char) : Prop := ∀ offset, ∃ e, p ⟨offset, cs⟩ = .miss e

/-- The parser, repeated often enough, takes `cs` off a text that goes on with `rest`. -/
def ReadsAll (p : Parser α) (cs rest : List Char) (good : List α → Prop) : Prop :=
  ∀ bound, cs.length ≤ bound → Reads (p.repeatUpTo bound) cs rest good

namespace Reads

variable {p : Parser α} {f : α → Parser β} {cs ds rest : List Char} {good : α → Prop}
  {fine : β → Prop}

theorem imp {better : α → Prop} (h : Reads p cs rest good) (himp : ∀ a, good a → better a) :
    Reads p cs rest better := by
  intro offset
  obtain ⟨a, stop, hrun, ha⟩ := h offset
  exact ⟨a, stop, hrun, himp a ha⟩

theorem pure {a : α} (h : good a) : Reads (Pure.pure a) [] rest good :=
  fun offset => ⟨a, offset, rfl, h⟩

/-- What a sequence reads. -/
theorem bind (h : Reads p cs (ds ++ rest) good) (hf : ∀ a, good a → Reads (f a) ds rest fine) :
    Reads (p >>= f) (cs ++ ds) rest fine := by
  intro offset
  obtain ⟨a, stop, hrun, ha⟩ := h offset
  obtain ⟨b, stop', hrun', hb⟩ := hf a ha stop
  refine ⟨b, stop', ?_, hb⟩
  show Parser.andThen p f _ = _
  rw [Parser.andThen, List.append_assoc, hrun]
  exact hrun'

/-- A sequence whose last member reads nothing. -/
theorem bind_pure {g : α → β} (h : Reads p cs rest good) (hg : ∀ a, good a → fine (g a)) :
    Reads (p >>= fun a => Pure.pure (g a)) cs rest fine := by
  have hbind : Reads (p >>= fun a => Pure.pure (g a)) (cs ++ []) rest fine := by
    apply Reads.bind h
    intro a ha
    exact Reads.pure (hg a ha)
  rwa [List.append_nil] at hbind

theorem orElse {q : Parser α} (h : Reads p cs rest good) : Reads (p.orElse q) cs rest good := by
  intro offset
  obtain ⟨a, stop, hrun, ha⟩ := h offset
  exact ⟨a, stop, by rw [Parser.orElse, hrun], ha⟩

theorem orElse_of_misses {q : Parser α} (hp : Misses p (cs ++ rest)) (h : Reads q cs rest good) :
    Reads (p.orElse q) cs rest good := by
  intro offset
  obtain ⟨e, hmiss⟩ := hp offset
  obtain ⟨a, stop, hrun, ha⟩ := h offset
  exact ⟨a, stop, by rw [Parser.orElse, hmiss, hrun], ha⟩

theorem commit (h : Reads p cs rest good) : Reads p.commit cs rest good := by
  intro offset
  obtain ⟨a, stop, hrun, ha⟩ := h offset
  exact ⟨a, stop, by rw [Parser.commit, hrun], ha⟩

theorem expecting {what : Expectation} (h : Reads p cs rest good) :
    Reads (p.expecting what) cs rest good := by
  intro offset
  obtain ⟨a, stop, hrun, ha⟩ := h offset
  exact ⟨a, stop, by rw [Parser.expecting, hrun], ha⟩

theorem optional (h : Reads p cs rest good) :
    Reads p.optional cs rest fun a => ∃ b, a = some b ∧ good b := by
  intro offset
  obtain ⟨a, stop, hrun, ha⟩ := h offset
  exact ⟨some a, stop, by rw [Parser.optional, hrun], a, rfl, ha⟩

theorem optional_of_misses (h : Misses p rest) : Reads p.optional [] rest (· = none) := by
  intro offset
  obtain ⟨e, hmiss⟩ := h offset
  refine ⟨none, offset, ?_, rfl⟩
  rw [List.nil_append, Parser.optional, hmiss]

end Reads

namespace Misses

variable {p : Parser α} {f : α → Parser β} {cs rest : List Char} {good : α → Prop}

theorem bind (h : Misses p cs) : Misses (p >>= f) cs := by
  intro offset
  obtain ⟨e, hmiss⟩ := h offset
  refine ⟨e, ?_⟩
  show Parser.andThen p f _ = _
  rw [Parser.andThen, hmiss]

/-- A sequence misses where a later member does. -/
theorem bind_of_reads (h : Reads p cs rest good) (hf : ∀ a, good a → Misses (f a) rest) :
    Misses (p >>= f) (cs ++ rest) := by
  intro offset
  obtain ⟨a, stop, hrun, ha⟩ := h offset
  obtain ⟨e, hmiss⟩ := hf a ha stop
  refine ⟨e, ?_⟩
  show Parser.andThen p f _ = _
  rw [Parser.andThen, hrun]
  exact hmiss

theorem orElse {q : Parser α} (hp : Misses p cs) (hq : Misses q cs) : Misses (p.orElse q) cs := by
  intro offset
  obtain ⟨e, hmiss⟩ := hp offset
  obtain ⟨e', hmiss'⟩ := hq offset
  exact ⟨e', by rw [Parser.orElse, hmiss, hmiss']⟩

theorem expecting {what : Expectation} (h : Misses p cs) : Misses (p.expecting what) cs := by
  intro offset
  obtain ⟨e, hmiss⟩ := h offset
  exact ⟨_, by rw [Parser.expecting, hmiss]⟩

end Misses

/-! ### Repetition -/

namespace ReadsAll

variable {p : Parser α} {cs ds rest : List Char} {good : α → Prop} {all better : List α → Prop}

theorem imp (h : ReadsAll p cs rest all) (himp : ∀ as, all as → better as) :
    ReadsAll p cs rest better := fun bound hbound => (h bound hbound).imp himp

/-- The end of a repetition. -/
theorem nil (h : Misses p rest) (hall : all []) : ReadsAll p [] rest all := by
  intro bound _ offset
  refine ⟨[], offset, ?_, hall⟩
  cases bound with
  | zero => rfl
  | succ bound =>
    obtain ⟨e, hmiss⟩ := h offset
    simp only [Parser.repeatUpTo, List.nil_append, hmiss]

/-- One more piece, which must not be empty. -/
theorem cons (hne : cs ≠ []) (h : Reads p cs (ds ++ rest) good) (hall : ReadsAll p ds rest all)
    (hbetter : ∀ a as, good a → all as → better (a :: as)) :
    ReadsAll p (cs ++ ds) rest better := by
  intro bound hbound offset
  have hlength : 0 < cs.length := List.length_pos_iff.mpr hne
  rw [List.length_append] at hbound
  cases bound with
  | zero => omega
  | succ bound =>
    obtain ⟨a, stop, hrun, ha⟩ := h offset
    -- The piece is not empty, so what is left of the bound is enough for the others.
    obtain ⟨as, stop', hrun', has⟩ := hall bound (by omega) stop
    refine ⟨a :: as, stop', ?_, hbetter a as ha has⟩
    simp only [Parser.repeatUpTo, List.append_assoc, hrun, hrun']

theorem many (h : ReadsAll p cs rest all) : Reads p.many cs rest all := by
  intro offset
  rw [Parser.many]
  apply h
  rw [List.length_append]
  exact Nat.le_add_right _ _

end ReadsAll

/-! ### Characters -/

section Characters

variable {cs rest : List Char}

theorem reads_char (x : Char) (rest : List Char) : Reads (Parser.char x) [x] rest fun _ => True := by
  intro offset
  exact ⟨(), _, if_pos rfl, trivial⟩

theorem reads_required (x : Char) (rest : List Char) :
    Reads (Parser.required x) [x] rest fun _ => True := (reads_char x rest).expecting

theorem misses_char {x : Char} (h : rest.head? ≠ some x) : Misses (Parser.char x) rest := by
  intro offset
  cases rest with
  | nil => exact ⟨_, rfl⟩
  | cons c rest =>
    have hne : c ≠ x := fun heq => h (congrArg some heq)
    exact ⟨_, if_neg hne⟩

theorem reads_spaces (h : ∀ c ∈ cs, Parser.isSpace c = true)
    (hrest : ∀ c ∈ rest.head?, Parser.isSpace c = false) :
    Reads Parser.spaces cs rest fun _ => True := by
  intro offset
  obtain ⟨-, hdrop⟩ := takeWhile_append_of_all h hrest
  have hrun : Parser.spaces ⟨offset, cs ++ rest⟩
      = .done () ⟨offset + ((cs ++ rest).takeWhile Parser.isSpace).length, rest⟩ := by
    rw [Parser.spaces, hdrop]
  exact ⟨(), _, hrun, trivial⟩

theorem reads_digits (hne : cs ≠ []) (h : ∀ c ∈ cs, c.isDigit = true)
    (hrest : ∀ c ∈ rest.head?, c.isDigit = false) :
    Reads Parser.digits cs rest fun l => l.text = String.ofList cs := by
  intro offset
  obtain ⟨htake, hdrop⟩ := takeWhile_append_of_all h hrest
  have hempty : ¬ cs.isEmpty = true := by simpa using hne
  have hrun : Parser.digits ⟨offset, cs ++ rest⟩
      = .done ⟨String.ofList cs, offset, offset + cs.length⟩ ⟨offset + cs.length, rest⟩ := by
    simp only [Parser.digits, htake, hdrop, if_neg hempty]
  exact ⟨_, _, hrun, rfl⟩

theorem misses_digits (h : ∀ c ∈ rest.head?, c.isDigit = false) : Misses Parser.digits rest := by
  intro offset
  obtain ⟨htake, -⟩ := @takeWhile_append_of_all [] rest Char.isDigit nofun h
  rw [List.nil_append] at htake
  have hrun : Parser.digits ⟨offset, rest⟩ = .miss ⟨offset, []⟩ := by
    simp only [Parser.digits, htake, List.isEmpty_nil, if_true]
  exact ⟨_, hrun⟩

end Characters

end JustIntonation.Notation
