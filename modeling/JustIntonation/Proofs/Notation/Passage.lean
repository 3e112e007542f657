/-
JustIntonation/Proofs/Notation/Passage.lean

What a parser has read.

`Passage c ink ls next` says that a reading went from the cursor `c` to the
cursor `next`.  What it passed is `ink`, less the white space, and `ls` are
the integers in it, each with the place at which it stands.  Passages are put
together one behind the other and nothing else, so a proof about a grammar
collects them along the grammar, and what they say of the text is proved here
once: nothing is lost (`Passage.exists_text`), every integer stands at its
place (`Passage.standsIn`), and the integers stand one behind the other
(`Passage.disjoint`).

A parser that has read something is taken apart by the equations of its
combinators (`bind_eq_done` and the following).
-/
import JustIntonation.Proofs.Notation.Layout

namespace JustIntonation.Notation

open Text (byteLength)

/-- A reading from one cursor to another: what was passed, less white space, and the integers in
it. -/
inductive Passage : Cursor → List Char → List Literal → Cursor → Prop
  | refl {c} : Passage c [] [] c
  | space {x offset rest} (blank : Parser.isSpace x = true) :
      Passage ⟨offset, x :: rest⟩ [] [] ⟨offset + x.utf8Size, rest⟩
  | sign {x offset rest} (visible : Parser.isSpace x = false) :
      Passage ⟨offset, x :: rest⟩ [x] [] ⟨offset + x.utf8Size, rest⟩
  | integer {ds offset rest} (nonempty : ds ≠ []) (digits : ∀ d ∈ ds, d.isDigit = true) :
      Passage ⟨offset, ds ++ rest⟩ ds [⟨String.ofList ds, offset, offset + ds.length⟩]
        ⟨offset + ds.length, rest⟩
  | trans {c mid next ink ink' ls ls'} (first : Passage c ink ls mid)
      (second : Passage mid ink' ls' next) : Passage c (ink ++ ink') (ls ++ ls') next

/-- The text of an integer stands at its place in a text that begins at an offset. -/
def Literal.StandsIn (l : Literal) (offset : Nat) (cs : List Char) : Prop :=
  ∃ before after, cs = before ++ (l.text.toList ++ after) ∧ l.start = offset + byteLength before ∧
    l.stop = l.start + byteLength l.text.toList

/-! ### Bytes -/

@[simp] theorem byteLength_nil : byteLength [] = 0 := rfl

@[simp] theorem byteLength_cons (c : Char) (cs : List Char) :
    byteLength (c :: cs) = c.utf8Size + byteLength cs := rfl

@[simp] theorem byteLength_append (cs ds : List Char) :
    byteLength (cs ++ ds) = byteLength cs + byteLength ds := by
  induction cs with
  | nil => simp
  | cons c cs ih => simp [ih, Nat.add_assoc]

theorem utf8Size_of_isDigit {c : Char} (h : c.isDigit = true) : c.utf8Size = 1 := by
  rw [Char.isDigit, Bool.and_eq_true, decide_eq_true_iff, decide_eq_true_iff] at h
  rw [Char.utf8Size, if_pos]
  exact UInt32.le_trans h.2 (by decide)

/-- Digits are as many bytes as characters. -/
theorem byteLength_of_isDigit {ds : List Char} (h : ∀ d ∈ ds, d.isDigit = true) :
    byteLength ds = ds.length := by
  induction ds with
  | nil => rfl
  | cons d ds ih =>
    obtain ⟨hd, hds⟩ := List.forall_mem_cons.mp h
    rw [byteLength_cons, ih hds, utf8Size_of_isDigit hd, List.length_cons, Nat.add_comm]

/-- The place of an error that was located behind a beginning of the text. -/
theorem offset_locate {source message : String} {cs rest : List Char}
    (htext : source.toList = cs ++ rest) :
    (SyntaxError.locate source (byteLength cs) message).offset = byteLength cs := by
  have hle : byteLength cs ≤ byteLength source.toList := by
    rw [htext, byteLength_append]
    exact Nat.le_add_right _ _
  exact Nat.min_eq_left hle

/-! ### What passages say of the text -/

namespace Passage

variable {c next : Cursor} {ink : List Char} {ls : List Literal}

/-- A passage takes some text off, and what is not white space in it is its ink. -/
theorem exists_text (h : Passage c ink ls next) : ∃ cs, c.rest = cs ++ next.rest ∧
    next.offset = c.offset + byteLength cs ∧ cs.filter (!Parser.isSpace ·) = ink := by
  induction h with
  | refl => exact ⟨[], rfl, rfl, rfl⟩
  | @space x _ _ blank => exact ⟨[x], rfl, rfl, by simp [blank]⟩
  | @sign x _ _ visible => exact ⟨[x], rfl, rfl, by simp [visible]⟩
  | @integer ds offset _ _ digits =>
    refine ⟨ds, rfl, by rw [byteLength_of_isDigit digits], ?_⟩
    rw [List.filter_eq_self]
    intro d hd
    rw [isSpace_eq_false_of_isDigit (digits d hd)]
    rfl
  | trans _ _ ih ih' =>
    obtain ⟨cs, hrest, hoffset, hink⟩ := ih
    obtain ⟨ds, hrest', hoffset', hink'⟩ := ih'
    refine ⟨cs ++ ds, ?_, ?_, ?_⟩
    · rw [hrest, hrest', List.append_assoc]
    · rw [hoffset', hoffset, byteLength_append, Nat.add_assoc]
    · rw [List.filter_append, hink, hink']

theorem offset_le (h : Passage c ink ls next) : c.offset ≤ next.offset := by
  obtain ⟨cs, -, hoffset, -⟩ := h.exists_text
  omega

/-- A passage takes off at least its ink. -/
theorem length_add_le (h : Passage c ink ls next) :
    next.rest.length + ink.length ≤ c.rest.length := by
  obtain ⟨cs, hrest, -, rfl⟩ := h.exists_text
  have hfilter := List.length_filter_le (!Parser.isSpace ·) cs
  rw [hrest, List.length_append]
  omega

/-- Every integer of a passage stands at its place in the text that the passage began at. -/
theorem standsIn (h : Passage c ink ls next) : ∀ l ∈ ls, l.StandsIn c.offset c.rest := by
  induction h with
  | refl => exact nofun
  | space => exact nofun
  | sign => exact nofun
  | @integer ds offset rest _ digits =>
    rintro l hl
    obtain rfl := List.mem_singleton.mp hl
    refine ⟨[], rest, ?_, rfl, ?_⟩
    · rw [List.nil_append, String.toList_ofList]
    · rw [String.toList_ofList, byteLength_of_isDigit digits]
  | @trans c mid _ _ _ _ _ first _ ih ih' =>
    intro l hl
    rcases List.mem_append.mp hl with hl | hl
    · exact ih l hl
    · -- In front of what the second part began at stands what the first one took off.
      obtain ⟨cs, hrest, hoffset, -⟩ := first.exists_text
      obtain ⟨before, after, hmid, hstart, hstop⟩ := ih' l hl
      refine ⟨cs ++ before, after, ?_, ?_, hstop⟩
      · rw [hrest, hmid, List.append_assoc]
      · rw [hstart, hoffset, byteLength_append, Nat.add_assoc]

/-- The integers of a passage are not empty and stand between its ends. -/
theorem between (h : Passage c ink ls next) :
    ∀ l ∈ ls, c.offset ≤ l.start ∧ l.start < l.stop ∧ l.stop ≤ next.offset := by
  induction h with
  | refl => exact nofun
  | space => exact nofun
  | sign => exact nofun
  | @integer ds offset rest nonempty _ =>
    rintro l hl
    obtain rfl := List.mem_singleton.mp hl
    have hlength := List.length_pos_iff.mpr nonempty
    exact ⟨Nat.le_refl _, Nat.lt_add_of_pos_right hlength, Nat.le_refl _⟩
  | trans first second ih ih' =>
    have hfirst := first.offset_le
    have hsecond := second.offset_le
    intro l hl
    rcases List.mem_append.mp hl with hl | hl
    · obtain ⟨hlow, hnonempty, hhigh⟩ := ih l hl
      exact ⟨hlow, hnonempty, by omega⟩
    · obtain ⟨hlow, hnonempty, hhigh⟩ := ih' l hl
      exact ⟨by omega, hnonempty, hhigh⟩

/-- Each integer of a passage ends before the later ones begin. -/
theorem disjoint (h : Passage c ink ls next) : ls.Pairwise fun l l' => l.stop ≤ l'.start := by
  induction h with
  | refl => exact List.Pairwise.nil
  | space => exact List.Pairwise.nil
  | sign => exact List.Pairwise.nil
  | integer => exact List.pairwise_singleton _ _
  | trans first second ih ih' =>
    refine List.pairwise_append.mpr ⟨ih, ih', ?_⟩
    intro l hl l' hl'
    exact Nat.le_trans (first.between l hl).2.2 (second.between l' hl').1

end Passage

/-! ### Parsers that have read something -/

section Done

variable {α β : Type} {p q : Parser α} {f : α → Parser β} {c next : Cursor} {a : α} {b : β}

theorem pure_eq_done {a' : α} : (pure a : Parser α) c = .done a' next ↔ a = a' ∧ c = next := by
  show Outcome.done a c = .done a' next ↔ _
  rw [Outcome.done.injEq]

theorem bind_eq_done : (p >>= f) c = .done b next ↔
    ∃ a mid, p c = .done a mid ∧ f a mid = .done b next := by
  show Parser.andThen p f c = _ ↔ _
  rw [Parser.andThen]
  cases p c with
  | done a mid =>
    constructor
    · exact fun hrun => ⟨a, mid, rfl, hrun⟩
    · rintro ⟨_, _, ⟨⟩, hrun⟩
      exact hrun
  | miss e => simp
  | fatal e => simp

theorem bind_eq_fatal {e : Failure} : (p >>= f) c = .fatal e ↔
    p c = .fatal e ∨ ∃ a mid, p c = .done a mid ∧ f a mid = .fatal e := by
  show Parser.andThen p f c = _ ↔ _
  rw [Parser.andThen]
  cases p c with
  | done a mid =>
    constructor
    · exact fun hrun => .inr ⟨a, mid, rfl, hrun⟩
    · rintro (hfirst | ⟨_, _, ⟨⟩, hrun⟩)
      · cases hfirst
      · exact hrun
  | miss e => simp
  | fatal e => simp

theorem orElse_eq_done : p.orElse q c = .done a next ↔
    p c = .done a next ∨ (∃ e, p c = .miss e) ∧ q c = .done a next := by
  rw [Parser.orElse]
  cases p c <;> simp

theorem commit_eq_done : p.commit c = .done a next ↔ p c = .done a next := by
  rw [Parser.commit]
  cases p c <;> simp

theorem expecting_eq_done {what : Expectation} :
    p.expecting what c = .done a next ↔ p c = .done a next := by
  rw [Parser.expecting]
  cases p c <;> simp

theorem optional_eq_done {o : Option α} : p.optional c = .done o next ↔
    (∃ a, o = some a ∧ p c = .done a next) ∨ o = none ∧ c = next ∧ ∃ e, p c = .miss e := by
  rw [Parser.optional]
  cases p c with
  | done a mid =>
    constructor
    · rintro ⟨⟩
      exact .inl ⟨a, rfl, rfl⟩
    · rintro (⟨_, rfl, ⟨⟩⟩ | ⟨-, -, _, hmiss⟩)
      · rfl
      · cases hmiss
  | miss e => simp [eq_comm]
  | fatal e => simp

theorem char_eq_done {x : Char} {u : Unit} : Parser.char x c = .done u next ↔
    ∃ rest, c.rest = x :: rest ∧ next = ⟨c.offset + x.utf8Size, rest⟩ := by
  obtain ⟨offset, rest⟩ := c
  cases rest with
  | nil => simp [Parser.char]
  | cons y rest =>
    by_cases hx : y = x
    · simp [Parser.char, hx, eq_comm]
    · simp [Parser.char, hx]

/-! ### Repetition -/

/-- A repetition has read nothing, or a piece and then the others. -/
theorem repeatUpTo_eq_done {bound : Nat} {as : List α} :
    p.repeatUpTo (bound + 1) c = .done as next ↔
      (∃ e, p c = .miss e) ∧ as = [] ∧ c = next ∨
      ∃ a as' mid, p c = .done a mid ∧ p.repeatUpTo bound mid = .done as' next ∧ as = a :: as' := by
  simp only [Parser.repeatUpTo]
  cases p c with
  | miss e => simp [eq_comm]
  | fatal e => simp
  | done a mid =>
    constructor
    · intro hrun
      cases hothers : p.repeatUpTo bound mid with
      | miss e => simp [hothers] at hrun
      | fatal e => simp [hothers] at hrun
      | done as' last =>
        simp only [hothers] at hrun
        obtain ⟨rfl, rfl⟩ := Outcome.done.inj hrun
        exact .inr ⟨a, as', mid, rfl, hothers, rfl⟩
    · rintro (⟨⟨_, hmiss⟩, -, -⟩ | ⟨_, as', _, ⟨⟩, hothers, rfl⟩)
      · cases hmiss
      · simp only [hothers]

/-- What a repetition has read, if each piece is a passage. -/
theorem passage_many {ink : α → List Char} {ls : α → List Literal} {good : α → Prop}
    (h : ∀ {c a next}, p c = .done a next → Passage c (ink a) (ls a) next ∧ good a)
    {as : List α} (hrun : p.many c = .done as next) :
    Passage c (as.flatMap ink) (as.flatMap ls) next ∧ ∀ a ∈ as, good a := by
  rw [Parser.many] at hrun
  generalize c.rest.length = bound at hrun
  induction bound generalizing c as with
  | zero =>
    obtain ⟨rfl, rfl⟩ := pure_eq_done.mp hrun
    exact ⟨.refl, nofun⟩
  | succ bound ih =>
    obtain ⟨-, rfl, rfl⟩ | ⟨a, as', mid, hfirst, hothers, rfl⟩ := repeatUpTo_eq_done.mp hrun
    · exact ⟨.refl, nofun⟩
    · obtain ⟨hpassage, ha⟩ := h hfirst
      obtain ⟨hpassages, has⟩ := ih hothers
      exact ⟨hpassage.trans hpassages, List.forall_mem_cons.mpr ⟨ha, has⟩⟩

/-- Where a repetition ends, no further piece can be read. -/
theorem many_ends (hp : ∀ {c a next}, p c = .done a next → next.rest.length < c.rest.length)
    {as : List α} (hrun : p.many c = .done as next) (last : Cursor) : p next ≠ .done a last := by
  rw [Parser.many] at hrun
  generalize hlength : c.rest.length = bound at hrun
  have hbound := Nat.le_of_eq hlength
  clear hlength
  induction bound generalizing c as with
  | zero =>
    obtain ⟨-, rfl⟩ := pure_eq_done.mp hrun
    -- Nothing is left, and a piece would take something off.
    intro hlast
    have hshort := hp hlast
    omega
  | succ bound ih =>
    obtain ⟨⟨e, hmiss⟩, -, rfl⟩ | ⟨a', as', mid, hfirst, hothers, -⟩ := repeatUpTo_eq_done.mp hrun
    · rw [hmiss]
      exact nofun
    · have hshort := hp hfirst
      exact ih hothers (by omega)

end Done

/-! ### Characters -/

theorem passage_char {x : Char} (hx : Parser.isSpace x = false) {c next : Cursor} {u : Unit}
    (h : Parser.char x c = .done u next) : Passage c [x] [] next := by
  obtain ⟨offset, rest⟩ := c
  obtain ⟨tail, rfl, rfl⟩ := char_eq_done.mp h
  exact .sign hx

theorem passage_spaces {c next : Cursor} {u : Unit} (h : Parser.spaces c = .done u next) :
    Passage c [] [] next := by
  obtain ⟨offset, rest⟩ := c
  obtain ⟨-, rfl⟩ := Outcome.done.inj h
  show Passage ⟨offset, rest⟩ [] [] ⟨offset + (rest.takeWhile Parser.isSpace).length,
    rest.dropWhile Parser.isSpace⟩
  induction rest generalizing offset with
  | nil => exact .refl
  | cons x rest ih =>
    cases hx : Parser.isSpace x with
    | false =>
      rw [List.takeWhile_cons_of_neg (by simp [hx]), List.dropWhile_cons_of_neg (by simp [hx])]
      exact .refl
    | true =>
      rw [List.takeWhile_cons_of_pos hx, List.dropWhile_cons_of_pos hx]
      -- The four characters that count as space are one byte each.
      have hsize : x.utf8Size = 1 := by
        rcases isSpace_iff.mp hx with rfl | rfl | rfl | rfl
        all_goals rfl
      have hlater := ih (offset + x.utf8Size)
        (by rw [Parser.spaces])
      have hboth := (Passage.space hx).trans hlater
      rwa [hsize, Nat.add_assoc, Nat.add_comm 1] at hboth

end JustIntonation.Notation
