/-
JustIntonation/Proofs/Notation/Commitment.lean

A volume that is missing behind its colon.

Behind the `:` of its duration a note has committed, and behind a second `:`
it has committed again: where no volume follows, the text is refused at the
place at which the volume should stand.  A chord has committed at its `<`, but
its volume is tried without a commitment of its own, so a `:` without a volume
behind it is given back.  The chord is then complete, the text ends in front of
a `:` with which nothing begins, and it is refused there, one byte before the
place at which the volume is missing.

Main result: where the two are refused (`offset_of_missing_volume`).
-/
import JustIntonation.Proofs.Notation.Completion

namespace JustIntonation.Notation

open Text (byteLength)

variable {α : Type} {p : Parser α} {cs rest : List Char} {depth : ℕ}

/-! ### Readings and their places -/

/-- What reads a passage reads up to the place behind its text. -/
theorem Reads.exists_done {good : α → Prop} (h : Reads p cs rest good)
    (hp : ∀ {c a next}, p c = .done a next → ∃ ink ls, Passage c ink ls next) (offset : ℕ) :
    ∃ a, p ⟨offset, cs ++ rest⟩ = .done a ⟨offset + byteLength cs, rest⟩ ∧ good a := by
  obtain ⟨a, stop, hrun, ha⟩ := h offset
  obtain ⟨ink, ls, hpassage⟩ := hp hrun
  obtain rfl := hpassage.offset_eq rfl
  exact ⟨a, hrun, ha⟩

/-- A repetition whose first piece is given up is given up with it. -/
theorem many_eq_fatal {c : Cursor} {f : Failure} (hne : c.rest ≠ []) (h : p c = .fatal f) :
    p.many c = .fatal f := by
  obtain ⟨x, tail, hrest⟩ := List.exists_cons_of_ne_nil hne
  simp only [Parser.many, hrest, List.length_cons, Parser.repeatUpTo, h]

theorem char_eq (x : Char) (offset : ℕ) (tail : List Char) :
    Parser.char x ⟨offset, x :: tail⟩ = .done () ⟨offset + x.utf8Size, tail⟩ := if_pos rfl

/-! ### A note -/

/-- A note is given up where its volume should stand. -/
theorem note_without_volume {f d : ProductLiteral} (hf : f.Canonical) (hd : d.Canonical)
    (hrest : ∀ c ∈ rest.head?, c.isDigit = false) :
    ∃ e, Parser.note ⟨0, f.chars ++ ':' :: (d.chars ++ ':' :: rest)⟩ = .fatal e ∧
      e.offset = byteLength (f.chars ++ ':' :: (d.chars ++ [':'])) := by
  have hproduct : ∀ {c a next}, Parser.product c = .done a next → ∃ ink ls, Passage c ink ls next :=
    fun h => ⟨_, _, (passage_product h).1⟩
  obtain ⟨f', hf', -⟩ :=
    (reads_product hf (endsProduct_colon (d.chars ++ ':' :: rest))).exists_done hproduct 0
  have hduration : Reads (Parser.commit (Parser.expecting .duration Parser.product)) d.chars
      (':' :: rest) fun a => a.bare = d.bare :=
    (reads_product hd (endsProduct_colon rest)).expecting.commit
  obtain ⟨d', hd', -⟩ := hduration.exists_done
    (fun h => hproduct (expecting_eq_done.mp (commit_eq_done.mp h)))
    (byteLength f.chars + Char.utf8Size ':')
  have hmisses : Misses (Parser.expecting .volume Parser.product) rest :=
    (misses_product hrest).expecting
  obtain ⟨e, he⟩ := hmisses (byteLength f.chars + Char.utf8Size ':' + byteLength d.chars
    + Char.utf8Size ':')
  have hvolume := commit_eq_fatal.mpr (.inr he)
  refine ⟨e, ?_, ?_⟩
  · rw [Nat.zero_add] at hf'
    refine bind_eq_fatal.mpr (.inr ⟨f', _, hf', ?_⟩)
    refine bind_eq_fatal.mpr (.inr ⟨(), _, char_eq _ _ _, ?_⟩)
    refine bind_eq_fatal.mpr (.inr ⟨d', _, hd', ?_⟩)
    refine bind_eq_fatal.mpr (.inl (optional_eq_fatal.mpr ?_))
    exact bind_eq_fatal.mpr (.inr ⟨(), _, char_eq _ _ _, hvolume⟩)
  · rw [offset_of_committed hvolume]
    simp [Nat.add_assoc]

/-- A text whose first item is given up is refused there. -/
theorem parse_of_item_fatal {source : String} {f : Failure} (hstarts : StartsItem source.toList)
    (h : Parser.item (source.toList.length + 1) ⟨0, source.toList⟩ = .fatal f) :
    Tree.parse source = .error (SyntaxError.locate source f.offset (expectedText f.expected)) := by
  have hspaces : Parser.spaces ⟨0, source.toList⟩ = .done () ⟨0, source.toList⟩ := by
    obtain ⟨htake, hdrop⟩ := takeWhile_append_of_all (List.forall_mem_nil _) hstarts.noSpace
    rw [List.nil_append] at htake hdrop
    rw [Parser.spaces, htake, hdrop, List.length_nil]
  have hmany : (do
      let e ← Parser.item (source.toList.length + 1)
      Parser.spaces
      return e : Parser Expr).many ⟨0, source.toList⟩ = .fatal f := by
    obtain ⟨x, tail, hsource, -⟩ := hstarts
    apply many_eq_fatal _ (bind_eq_fatal.mpr (.inl h))
    rw [hsource]
    exact List.cons_ne_nil _ _
  have htree : Parser.tree (source.toList.length + 1) ⟨0, source.toList⟩ = .fatal f :=
    bind_eq_fatal.mpr (.inl (bind_eq_fatal.mpr (.inr ⟨(), _, hspaces, hmany⟩)))
  simp only [Tree.parse, htree]

/-- A note behind the second colon of which no volume stands is refused behind the colon. -/
theorem parse_note_without_volume {note after : String} {f d : ProductLiteral}
    (hcanonical : (Expr.note f d none).Canonical)
    (hnote : (Expr.note f d none).Written note.toList)
    (hafter : ∀ c ∈ after.toList.head?, c.isDigit = false) :
    ∃ e, Tree.parse (note ++ ":" ++ after) = .error e ∧ e.offset = (note ++ ":").utf8ByteSize := by
  obtain ⟨hf, hd⟩ : f.Canonical ∧ d.Canonical := by
    cases hcanonical with
    | note hf hd _ => exact ⟨hf, hd⟩
  have hbefore : (note ++ ":").toList = f.chars ++ ':' :: (d.chars ++ [':']) := by
    rw [String.toList_append]
    generalize note.toList = cs at hnote
    cases hnote
    simp [volumeChars]
  have hsource : (note ++ ":" ++ after).toList
      = f.chars ++ ':' :: (d.chars ++ ':' :: after.toList) := by
    rw [String.toList_append, hbefore]
    simp
  obtain ⟨e, he, hoffset⟩ := note_without_volume hf hd hafter
  rw [← hsource] at he
  have hstarts : StartsItem (note ++ ":" ++ after).toList := by
    rw [hsource]
    exact .of_canonical hf _
  have hmultiplied : Misses (Parser.multiplied (Parser.item (note ++ ":" ++ after).toList.length))
      (note ++ ":" ++ after).toList := by
    rw [hsource]
    exact Misses.bind_of_reads (reads_product hf (endsProduct_colon _))
      fun _ _ => (misses_char (by rintro ⟨⟩)).bind
  have hitem : Parser.item ((note ++ ":" ++ after).toList.length + 1)
      ⟨0, (note ++ ":" ++ after).toList⟩ = .fatal e :=
    orElse_eq_fatal.mpr (.inr ⟨hmultiplied 0,
      bind_eq_fatal.mpr (.inl (orElse_eq_fatal.mpr (.inl he)))⟩)
  refine ⟨_, parse_of_item_fatal hstarts hitem, ?_⟩
  rw [hoffset, ← hbefore, offset_locate String.toList_append, byteLength_toList]

/-! ### A chord -/

/-- An item with which a text begins is all that is read of it, if what stands behind it begins
neither an item nor a part. -/
theorem reads_tree_of_item {good : Expr → Prop} (hitem : Reads (Parser.item depth) cs rest good)
    (hstarts : StartsItem cs) (hrest : StartsNoItem rest)
    (hspace : ∀ c ∈ rest.head?, Parser.isSpace c = false) (hpart : rest.head? ≠ some ';') :
    Reads (Parser.tree depth) cs rest fun _ => True := by
  have hsequence : Reads (Parser.sequence (Parser.item depth)) ([] ++ (cs ++ [] ++ [])) rest
      fun _ => True := by
    apply Reads.bind (reads_spaces (List.forall_mem_nil _) _)
    · intro _ _
      apply ReadsAll.many
      have hpiece := reads_spaced hitem (List.forall_mem_nil _) hspace
      have hne : cs ++ [] ≠ [] := by
        obtain ⟨x, tail, rfl, -⟩ := hstarts
        exact List.cons_ne_nil _ _
      apply ReadsAll.cons hne hpiece (ReadsAll.nil (misses_item _ hrest).bind rfl)
      exact fun _ _ _ _ => trivial
    · rw [List.append_nil, List.append_nil]
      exact (hstarts.append rest).noSpace
  have hothers : ReadsAll (do Parser.char ';'; Parser.sequence (Parser.item depth)) [] rest
      fun _ => True := .nil (misses_char hpart).bind trivial
  rw [List.nil_append, List.append_nil, List.append_nil] at hsequence
  rw [← List.append_nil cs]
  exact Reads.bind hsequence fun _ _ => hothers.many.bind_pure fun _ _ => trivial

/-- A chord ends in front of a `:` that has no volume behind it. -/
theorem reads_chord_before_colon {fs : List ProductLiteral} {d : ProductLiteral}
    (hcanonical : (Expr.chord fs d none).Canonical) (hchord : (Expr.chord fs d none).Written cs)
    (hrest : ∀ c ∈ rest.head?, c.isDigit = false) :
    Reads (Parser.item (depth + 1)) cs (':' :: rest)
      fun e => e.bare = (Expr.chord fs d none).bare := by
  cases hcanonical with
  | chord hfs hd hv =>
    cases hchord with
    | chord hblank hspread =>
      have hread := reads_chord hblank hspread hfs hd hv (endsProduct_colon rest) fun _ =>
        Misses.bind_of_reads (reads_char ':' rest) fun _ _ => (misses_product hrest).expecting
      have hatom : Reads (Parser.atom (Parser.item depth)) _ (factorsChars [] ++ ':' :: rest) _ :=
        .orElse_of_misses (misses_note (by rintro c ⟨⟩; rfl)) hread.orElse
      have hamplified :=
        reads_amplified hatom (List.forall_mem_nil _) (by rintro ⟨⟩) (absurd rfl)
      rw [factorsChars, List.flatMap_nil, List.append_nil] at hamplified
      exact .orElse_of_misses (misses_product (by rintro c ⟨⟩; rfl)).bind hamplified

/-- A chord behind the colon of which no volume stands is complete, and the text ends at the
colon. -/
theorem parse_chord_without_volume {chord after : String} {fs : List ProductLiteral}
    {d : ProductLiteral} (hcanonical : (Expr.chord fs d none).Canonical)
    (hchord : (Expr.chord fs d none).Written chord.toList)
    (hafter : ∀ c ∈ after.toList.head?, c.isDigit = false) :
    ∃ e, Tree.parse (chord ++ ":" ++ after) = .error e ∧ e.offset = chord.utf8ByteSize := by
  have hsource : (chord ++ ":" ++ after).toList = chord.toList ++ ':' :: after.toList := by
    rw [String.toList_append, String.toList_append, List.append_assoc]
    rfl
  have hstarts : StartsItem chord.toList := by
    generalize chord.toList = cs at hchord
    cases hchord
    exact ⟨'<', _, rfl, .inr (.inl rfl)⟩
  have hitem : Reads (Parser.item ((chord ++ ":" ++ after).toList.length + 1)) chord.toList
      (':' :: after.toList) _ := reads_chord_before_colon hcanonical hchord hafter
  have hread := reads_tree_of_item hitem hstarts
    ⟨by rintro c ⟨⟩; rfl, by rintro ⟨⟩, by rintro ⟨⟩⟩ (by rintro c ⟨⟩; rfl) (by rintro ⟨⟩)
  obtain ⟨t, hrun, -⟩ := hread.exists_done (fun h => ⟨_, _, (passage_tree h).1⟩) 0
  rw [← hsource] at hrun
  refine ⟨SyntaxError.locate (chord ++ ":" ++ after) (byteLength chord.toList)
    (expectedText []), ?_, ?_⟩
  · simp only [Tree.parse, hrun, List.isEmpty_cons, Nat.zero_add]
    rfl
  · rw [offset_locate hsource, byteLength_toList]

/-! ### The two side by side -/

/-- Where no volume stands behind the second colon, a note is refused at the place of the volume,
and a chord one byte before it, at the colon. -/
theorem offset_of_missing_volume {note chord after : String} {f d d' : ProductLiteral}
    {fs : List ProductLiteral} (hnote : (Expr.note f d none).Canonical)
    (hnoteText : (Expr.note f d none).Written note.toList)
    (hchord : (Expr.chord fs d' none).Canonical)
    (hchordText : (Expr.chord fs d' none).Written chord.toList)
    (hafter : ∀ c ∈ after.toList.head?, c.isDigit = false) :
    (∃ e, Tree.parse (note ++ ":" ++ after) = .error e ∧
      e.offset = (note ++ ":").utf8ByteSize) ∧
    ∃ e, Tree.parse (chord ++ ":" ++ after) = .error e ∧
      e.offset = chord.utf8ByteSize ∧ e.offset + 1 = (chord ++ ":").utf8ByteSize := by
  refine ⟨parse_note_without_volume hnote hnoteText hafter, ?_⟩
  obtain ⟨e, he, hoffset⟩ := parse_chord_without_volume hchord hchordText hafter
  refine ⟨e, he, hoffset, ?_⟩
  rw [hoffset, String.utf8ByteSize_append]
  rfl

/-- The chord is refused at offset 5, and not at offset 6 where its volume is missing. -/
theorem chord_not_committed : (Expr.note (.single "1" none) (.single "1" none) none).Canonical ∧
    (Expr.note (.single "1" none) (.single "1" none) none).Written "1:1".toList ∧
    (Expr.chord [.single "1" none] (.single "1" none) none).Canonical ∧
    (Expr.chord [.single "1" none] (.single "1" none) none).Written "<1>:1".toList ∧
    (∀ c ∈ "x".toList.head?, c.isDigit = false) ∧
    ¬ ((∃ e, Tree.parse ("1:1" ++ ":" ++ "x") = .error e ∧
        e.offset = ("1:1" ++ ":").utf8ByteSize) ∧
      ∃ e, Tree.parse ("<1>:1" ++ ":" ++ "x") = .error e ∧
        e.offset = ("<1>:1" ++ ":").utf8ByteSize) := by
  have hone : (ProductLiteral.single "1" none).Canonical := by decide +kernel
  have hplace : ((Tree.parse ("<1>:1" ++ ":" ++ "x")).map fun _ => ()).mapError SyntaxError.offset
      = .error 5 := by decide +kernel
  refine ⟨.note hone hone nofun, .note, .chord (List.forall_mem_singleton.mpr hone) hone nofun,
    .chord (List.forall_mem_nil _) (.last rfl (List.forall_mem_nil _)), by rintro c ⟨⟩; rfl, ?_⟩
  rintro ⟨-, e, he, hoffset⟩
  rw [he] at hplace
  have hsix : ("<1>:1" ++ ":").utf8ByteSize = 6 := by decide +kernel
  have hfive : e.offset = 5 := Except.error.inj hplace
  omega

theorem offset_of_missing_volume_unison :
    (∀ c ∈ "x".toList.head?, c.isDigit = false) ∧
    (∃ e, Tree.parse ("1:1" ++ ":" ++ "x") = .error e ∧
      e.offset = ("1:1" ++ ":").utf8ByteSize) ∧
    ∃ e, Tree.parse ("<1>:1" ++ ":" ++ "x") = .error e ∧
      e.offset = "<1>:1".utf8ByteSize ∧ e.offset + 1 = ("<1>:1" ++ ":").utf8ByteSize := by
  have hone : (ProductLiteral.single "1" none).Canonical := by decide +kernel
  have hafter : ∀ c ∈ "x".toList.head?, c.isDigit = false := by rintro c ⟨⟩; rfl
  refine ⟨hafter, offset_of_missing_volume (.note hone hone nofun) .note
    (.chord (List.forall_mem_singleton.mpr hone) hone nofun)
    (.chord (List.forall_mem_nil _) (.last rfl (List.forall_mem_nil _))) hafter⟩

end JustIntonation.Notation
