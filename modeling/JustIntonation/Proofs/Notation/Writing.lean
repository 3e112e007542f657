/-
JustIntonation/Proofs/Notation/Writing.lean

Music written down.

Well-formed music can be written without groups and operators: a note as its
frequency, its duration and, unless that is plainly one, its volume, and a
chord as its frequencies with what its notes have in common behind them
(`Piece.text`).  What is written so is a text of a tree of literals
(`Tree.ofPiece`), which is canonical, can be evaluated and means the music it
was made from.  The parser accepts it like any text of a canonical tree.

Main result: the pieces that texts denote are the well-formed ones, and each
of them is denoted by its own text (`wellFormed_iff_parse`).
-/
import JustIntonation.Proofs.Notation.Acceptance
import JustIntonation.Proofs.Notation.Image

namespace JustIntonation

/-! ### Texts of music -/

/-- What stands behind frequencies: `:d`, or `:d:v` where the volume is not plainly one. -/
def timingText (duration volume : Quantity) : String :=
  ":" ++ duration.text ++ (if volume = .one then "" else ":" ++ volume.text)

/-- `f:d` for a note and `<f1 f2 ...>:d` for a chord, again with an optional volume. -/
def Event.text : Event → String
  | .note n => n.frequency.text ++ timingText n.duration n.volume
  | .chord [] => "<>:1"
  | .chord (n :: notes) =>
    "<" ++ " ".intercalate ((n :: notes).map fun m => m.frequency.text) ++ ">" ++
      timingText n.duration n.volume

def Part.text (p : Part) : String := " ".intercalate (p.events.map Event.text)

def Piece.text (p : Piece) : String := ";".intercalate (p.parts.map Part.text)

namespace Notation

/-! ### Integers -/

/-- The literal of a number.  Where it stands does not matter. -/
def Literal.ofNat (n : ℕ) : Literal := ⟨toString n, 0, 0⟩

theorem chars_ofNat (n : ℕ) : (Literal.ofNat n).chars = Nat.toDigits 10 n := Nat.toList_repr

theorem canonical_ofNat (n : ℕ) : (Literal.ofNat n).Canonical := by
  have hchars : (Literal.ofNat n).text.toList = Nat.toDigits 10 n := chars_ofNat n
  rw [Literal.Canonical, hchars]
  exact ⟨Nat.toDigits_ne_nil, fun _ => Text.isDigit_of_mem_toDigits⟩

theorem number_ofNat (n : ℕ) : (Literal.ofNat n).number = n := by
  show Nat.ofDigitChars 10 (Literal.ofNat n).chars 0 = n
  rw [chars_ofNat, Nat.ofDigitChars_ten_toDigits]

theorem toList_toString {z : ℤ} (h : 0 ≤ z) :
    (toString z).toList = (Literal.ofNat z.toNat).chars := by
  obtain ⟨n, rfl⟩ := Int.eq_ofNat_of_zero_le h
  rw [Int.toString_eq_repr]
  rfl

/-! ### Ratios -/

def RatioLiteral.ofRatio (r : Ratio) : RatioLiteral :=
  ⟨.ofNat r.num.toNat, if r.den = 1 then none else some (.ofNat r.den.toNat)⟩

section Ratios

variable {r : Ratio} (h : r.WellFormed)

theorem canonical_ofRatio (r : Ratio) : (RatioLiteral.ofRatio r).Canonical := by
  refine ⟨canonical_ofNat _, ?_⟩
  rw [RatioLiteral.ofRatio]
  split_ifs
  · exact nofun
  · rintro _ ⟨⟩
    exact canonical_ofNat _

include h

theorem chars_ofRatio : (RatioLiteral.ofRatio r).chars = r.text.toList := by
  rw [RatioLiteral.chars, RatioLiteral.ofRatio, Ratio.text]
  split_ifs with hone
  · exact (toList_toString h.nonneg).symm
  · rw [String.toList_append, String.toList_append, toList_toString h.nonneg,
      toList_toString h.pos.le, List.append_assoc]
    rfl

theorem evaluable_ofRatio : (RatioLiteral.ofRatio r).Evaluable := by
  obtain ⟨hnonneg, hnum, hpos, hden, -⟩ := h
  constructor
  · show (Literal.ofNat r.num.toNat).number ≤ largestInteger
    rw [number_ofNat]
    omega
  · rw [RatioLiteral.ofRatio]
    split_ifs
    · exact nofun
    · rintro _ ⟨⟩
      rw [number_ofNat]
      omega

theorem reduced_ofRatio : (RatioLiteral.ofRatio r).reduced = r := by
  obtain ⟨num, den, hne⟩ := r
  have hnum : (num.toNat : ℚ) = num := by exact_mod_cast Int.toNat_of_nonneg h.nonneg
  have hden : (den.toNat : ℚ) = den := by exact_mod_cast Int.toNat_of_nonneg h.pos.le
  have hquotient : (RatioLiteral.ofRatio ⟨num, den, hne⟩).quotient = (num : ℚ) / den := by
    rw [RatioLiteral.quotient, RatioLiteral.ofRatio, number_ofNat, hnum]
    dsimp only
    split_ifs with hone
    · rw [hone]
      rfl
    · rw [Option.map_some, Option.getD_some, number_ofNat, hden]
  refine (Ratio.mk.injEq _ _ _ _ _ _).mpr ⟨?_, ?_⟩
  · rw [hquotient]
    exact Rat.num_div_eq_of_coprime h.pos h.reduced
  · rw [hquotient]
    exact Rat.den_div_eq_of_coprime h.pos h.reduced

end Ratios

/-! ### Products -/

/-- The literal of a product. -/
def ProductLiteral.ofQuantity : Quantity → ProductLiteral
  | .product p => ⟨p.factors.map RatioLiteral.ofRatio⟩
  | .ratio _ | .power _ => ⟨[]⟩

/-- The literal of a volume that is not plainly one. -/
def volumeLiteral (v : Quantity) : Option ProductLiteral :=
  if v = .one then none else some (.ofQuantity v)

section Products

variable {q : Quantity} (h : q.WellFormed)

include h

theorem canonical_ofQuantity : (ProductLiteral.ofQuantity q).Canonical := by
  cases q with
  | product p =>
    constructor
    · exact fun hnil => h.nonempty (List.map_eq_nil_iff.mp hnil)
    · exact List.forall_mem_map.mpr fun r _ => canonical_ofRatio r
  | ratio r => exact h.elim
  | power p => exact h.elim

theorem evaluable_ofQuantity : (ProductLiteral.ofQuantity q).Evaluable := by
  cases q with
  | product p => exact List.forall_mem_map.mpr fun r hr => evaluable_ofRatio (h.factors r hr)
  | ratio r => exact h.elim
  | power p => exact h.elim

theorem factors_ofQuantity : Quantity.product ⟨(ProductLiteral.ofQuantity q).factors⟩ = q := by
  cases q with
  | product p =>
    show Quantity.product ⟨(p.factors.map RatioLiteral.ofRatio).map RatioLiteral.reduced⟩ = _
    have hall : ∀ r ∈ p.factors, (RatioLiteral.reduced ∘ RatioLiteral.ofRatio) r = id r :=
      fun r hr => reduced_ofRatio (h.factors r hr)
    rw [List.map_map, List.map_congr_left hall, List.map_id]
  | ratio r => exact h.elim
  | power p => exact h.elim

theorem chars_ofQuantity : (ProductLiteral.ofQuantity q).chars = q.text.toList := by
  cases q with
  | product p =>
    show ['*'].intercalate ((p.factors.map RatioLiteral.ofRatio).map RatioLiteral.chars)
      = ("*".intercalate (p.factors.map Ratio.text)).toList
    rw [String.toList_intercalate, List.map_map, List.map_map]
    exact congrArg _ (List.map_congr_left fun r hr => chars_ofRatio (h.factors r hr))
  | ratio r => exact h.elim
  | power p => exact h.elim

end Products

/-! ### Events -/

/-- A note or a chord as one literal. -/
def Expr.ofEvent : Event → Expr
  | .note n => .note (.ofQuantity n.frequency) (.ofQuantity n.duration) (volumeLiteral n.volume)
  | .chord [] => .chord [] (.ofQuantity (.product (.single (.ofInt 1)))) none
  | .chord (n :: notes) =>
    .chord ((n :: notes).map fun m => .ofQuantity m.frequency) (.ofQuantity n.duration)
      (volumeLiteral n.volume)

theorem volumeLiteral_of_wellFormed {v : Quantity} (h : v = .one ∨ v.WellFormed) :
    v = .one ∧ volumeLiteral v = none ∨
      v.WellFormed ∧ volumeLiteral v = some (.ofQuantity v) := by
  rw [volumeLiteral]
  split_ifs with hone
  · exact .inl ⟨hone, rfl⟩
  · exact .inr ⟨h.resolve_left hone, rfl⟩

theorem chars_timing {d v : Quantity} (hd : d.WellFormed) (hv : v = .one ∨ v.WellFormed) :
    ':' :: ((ProductLiteral.ofQuantity d).chars ++ volumeChars (volumeLiteral v))
      = (timingText d v).toList := by
  rw [timingText, String.toList_append, String.toList_append, chars_ofQuantity hd]
  rcases volumeLiteral_of_wellFormed hv with ⟨hone, hnone⟩ | ⟨hwell, hsome⟩
  · rw [hnone, if_pos hone]
    rfl
  · have hne : v ≠ .one := by
      rintro rfl
      exact hwell
    rw [hsome, if_neg hne, String.toList_append, volumeChars, chars_ofQuantity hwell]
    rfl

theorem loudness_volumeLiteral {v : Quantity} (h : v = .one ∨ v.WellFormed) (a : Atom)
    (d : ProductLiteral) : (Site.mk [] [] a d (volumeLiteral v)).loudness = v := by
  rcases volumeLiteral_of_wellFormed h with ⟨hone, hnone⟩ | ⟨hwell, hsome⟩
  · rw [hnone, hone]
    rfl
  · rw [hsome]
    exact factors_ofQuantity hwell

/-- A note of a literal without operators around it. -/
theorem note_ofNote {n m : Note} (hn : n.WellFormed) (hm : m.WellFormed)
    (hduration : m.duration = n.duration) (hvolume : m.volume = n.volume) (a : Atom) :
    (Site.mk [] [] a (.ofQuantity n.duration) (volumeLiteral n.volume)).note
      (.ofQuantity m.frequency) = m := by
  have hfrequency : (Site.mk [] [] a (.ofQuantity n.duration) (volumeLiteral n.volume)).frequency
      (.ofQuantity m.frequency) = m.frequency := by
    rw [Site.frequency, List.nil_append, List.flatMap_singleton]
    exact factors_ofQuantity hm.frequency
  rw [Site.note, hfrequency, loudness_volumeLiteral hn.volume, factors_ofQuantity hn.duration,
    ← hduration, ← hvolume]

theorem sound_volumeLiteral {v : Quantity} (h : v = .one ∨ v.WellFormed) :
    ∀ p ∈ volumeLiteral v, p.Canonical ∧ p.Evaluable := by
  rcases volumeLiteral_of_wellFormed h with ⟨-, hnone⟩ | ⟨hwell, hsome⟩
  · rw [hnone]
    exact nofun
  · rw [hsome]
    rintro _ ⟨⟩
    exact ⟨canonical_ofQuantity hwell, evaluable_ofQuantity hwell⟩

/-- Texts with a space between two of them are spread. -/
theorem spread_intercalate {α : Type} {written : α → List Char → Prop} {xs : List α}
    {texts : List (List Char)} (h : List.Forall₂ written xs texts) :
    Spread written xs ([' '].intercalate texts) := by
  induction h with
  | nil => exact .nil
  | @cons x text xs texts hx hrest ih =>
    cases hrest with
    | nil =>
      rw [intercalate_cons]
      exact .last hx (List.forall_mem_nil _)
    | cons _ _ =>
      rw [List.intercalate_cons_cons, List.append_assoc]
      exact .cons hx (List.forall_mem_singleton.mpr (.inl rfl)) (List.cons_ne_nil _ _) ih

section Events

variable {e : Event} (h : e.WellFormed)

include h

/-- The literal of an event means that event. -/
theorem event_ofEvent : ((Expr.ofEvent e).sites [] []).map Site.event = [e] := by
  cases e with
  | note n =>
    have hn := h.notes n List.mem_cons_self
    exact congrArg (fun m => [Event.note m]) (note_ofNote hn hn rfl rfl _)
  | chord notes =>
    cases notes with
    | nil => rfl
    | cons n notes =>
      have hnotes : ∀ m ∈ n :: notes, (Site.note ⟨[], [], .chord ((n :: notes).map fun m =>
          .ofQuantity m.frequency), .ofQuantity n.duration, volumeLiteral n.volume⟩ ∘
            fun m => .ofQuantity m.frequency) m = id m := by
        intro m hm
        obtain ⟨hduration, hvolume⟩ := h.shared m hm n List.mem_cons_self
        exact note_ofNote (h.notes n List.mem_cons_self) (h.notes m hm) hduration hvolume _
      show [Event.chord (((n :: notes).map _).map _)] = _
      rw [List.map_map, List.map_congr_left hnotes, List.map_id]

theorem canonical_ofEvent : (Expr.ofEvent e).Canonical := by
  cases e with
  | note n =>
    have hn := h.notes n List.mem_cons_self
    exact .note (canonical_ofQuantity hn.frequency) (canonical_ofQuantity hn.duration)
      fun p hp => (sound_volumeLiteral hn.volume p hp).1
  | chord notes =>
    cases notes with
    | nil => exact .chord nofun (by decide +kernel) nofun
    | cons n notes =>
      have hn := h.notes n List.mem_cons_self
      have hfrequencies := List.forall_mem_map.mpr fun m hm =>
        canonical_ofQuantity (h.notes m hm).frequency
      exact .chord hfrequencies (canonical_ofQuantity hn.duration)
        fun p hp => (sound_volumeLiteral hn.volume p hp).1

theorem evaluable_ofEvent : ∀ p ∈ (Expr.ofEvent e).products, p.Evaluable := by
  cases e with
  | note n =>
    have hn := h.notes n List.mem_cons_self
    refine List.forall_mem_cons.mpr ⟨evaluable_ofQuantity hn.frequency,
      List.forall_mem_cons.mpr ⟨evaluable_ofQuantity hn.duration, fun p hp => ?_⟩⟩
    exact (sound_volumeLiteral hn.volume p (Option.mem_toList.mp hp)).2
  | chord notes =>
    cases notes with
    | nil => exact List.forall_mem_singleton.mpr (by decide +kernel)
    | cons n notes =>
      have hn := h.notes n List.mem_cons_self
      have hfrequencies := List.forall_mem_map.mpr fun m hm =>
        evaluable_ofQuantity (h.notes m hm).frequency
      refine List.forall_mem_append.mpr ⟨hfrequencies,
        List.forall_mem_cons.mpr ⟨evaluable_ofQuantity hn.duration, fun p hp => ?_⟩⟩
      exact (sound_volumeLiteral hn.volume p (Option.mem_toList.mp hp)).2

/-- The text of an event is one of its literal. -/
theorem written_ofEvent : (Expr.ofEvent e).Written e.text.toList := by
  cases e with
  | note n =>
    have hn := h.notes n List.mem_cons_self
    rw [Event.text, String.toList_append, ← chars_ofQuantity hn.frequency,
      ← chars_timing hn.duration hn.volume]
    exact .note
  | chord notes =>
    cases notes with
    | nil =>
      have hone : (ProductLiteral.ofQuantity (.product (.single (.ofInt 1)))).chars = ['1'] := by
        decide +kernel
      have hwritten := Expr.Written.chord (d := .ofQuantity (.product (.single (.ofInt 1))))
        (v := none) (List.forall_mem_nil _) Spread.nil
      rwa [hone] at hwritten
    | cons n notes =>
      have hn := h.notes n List.mem_cons_self
      have hspread : Spread (fun (f : ProductLiteral) cs => cs = f.chars)
          ((n :: notes).map fun m => .ofQuantity m.frequency)
          (" ".intercalate ((n :: notes).map fun m => m.frequency.text)).toList := by
        rw [String.toList_intercalate, List.map_map]
        apply spread_intercalate
        rw [List.forall₂_map_left_iff, List.forall₂_map_right_iff, List.forall₂_same]
        exact fun m hm => (chars_ofQuantity (h.notes m hm).frequency).symm
      have hwritten := Expr.Written.chord (d := .ofQuantity n.duration)
        (v := volumeLiteral n.volume) (List.forall_mem_nil _) hspread
      rw [chars_timing hn.duration hn.volume, List.nil_append] at hwritten
      rw [Event.text, String.toList_append, String.toList_append, String.toList_append,
        List.append_assoc, List.append_assoc]
      exact hwritten

end Events

/-! ### Pieces -/

/-- A piece as a tree of literals. -/
def Tree.ofPiece (p : Piece) : Tree := ⟨p.parts.map fun part => part.events.map Expr.ofEvent⟩

section Pieces

variable {p : Piece} (h : p.WellFormed)

include h

theorem canonical_ofPiece : (Tree.ofPiece p).Canonical where
  nonempty := fun hnil => h.nonempty (List.map_eq_nil_iff.mp hnil)
  items := by
    intro items hitems e he
    obtain ⟨part, hpart, rfl⟩ := List.mem_map.mp hitems
    obtain ⟨event, hevent, rfl⟩ := List.mem_map.mp he
    exact canonical_ofEvent (h.events part hpart event hevent)

theorem evaluable_ofPiece : (Tree.ofPiece p).Evaluable := by
  intro q hq
  obtain ⟨items, hitems, hq⟩ := List.mem_flatMap.mp hq
  obtain ⟨part, hpart, rfl⟩ := List.mem_map.mp hitems
  rw [Expr.sequenceProducts_eq_flatMap] at hq
  obtain ⟨e, he, hq⟩ := List.mem_flatMap.mp hq
  obtain ⟨event, hevent, rfl⟩ := List.mem_map.mp he
  exact evaluable_ofEvent (h.events part hpart event hevent) q hq

theorem meaning_ofPiece : (Tree.ofPiece p).meaning = p := by
  have hevents : ∀ events : List Event, (∀ e ∈ events, e.WellFormed) →
      (Expr.sequenceSites [] [] (events.map Expr.ofEvent)).map Site.event = events := by
    intro events hevents
    induction events with
    | nil => rfl
    | cons e events ih =>
      obtain ⟨he, hevents⟩ := List.forall_mem_cons.mp hevents
      rw [List.map_cons, Expr.sequenceSites, List.map_append, event_ofEvent he, ih hevents,
        List.singleton_append]
  have hparts : ∀ part ∈ p.parts, Part.mk ((Expr.sequenceSites [] []
      (part.events.map Expr.ofEvent)).map Site.event) = id part := fun part hpart =>
    congrArg Part.mk (hevents part.events (h.events part hpart))
  rw [Tree.meaning, Tree.ofPiece, List.map_map]
  exact congrArg Piece.mk ((List.map_congr_left hparts).trans (List.map_id _))

theorem written_ofPiece : (Tree.ofPiece p).Written p.text.toList := by
  refine ⟨p.parts.map fun part => part.text.toList, ?_, ?_⟩
  · rw [Tree.ofPiece, List.forall₂_map_left_iff, List.forall₂_map_right_iff, List.forall₂_same]
    intro part hpart
    refine ⟨[], part.text.toList, nofun, ?_, rfl⟩
    rw [Part.text, String.toList_intercalate, List.map_map]
    apply spread_intercalate
    rw [List.forall₂_map_left_iff, List.forall₂_map_right_iff, List.forall₂_same]
    exact fun e he => written_ofEvent (h.events part hpart e he)
  · rw [Piece.text, String.toList_intercalate, List.map_map]
    rfl

end Pieces

end Notation

theorem parse_text {p : Piece} (h : p.WellFormed) : Piece.parse p.text = .ok p := by
  have hreads := Notation.reads_tree (Notation.canonical_ofPiece h) (Notation.written_ofPiece h)
    (Nat.le_succ _)
  obtain ⟨t, ht, hbare⟩ := Notation.parse_of_reads hreads
  have hpiece : (Notation.Tree.ofPiece p).piece p.text = .ok p :=
    Notation.piece_eq_ok.mpr ⟨Notation.evaluable_ofPiece h, (Notation.meaning_ofPiece h).symm⟩
  exact Notation.parse_eq_ok.mpr ⟨t, ht, Notation.piece_eq_ok_of_bare hbare hpiece⟩

/-- What texts denote are the well-formed pieces, and the text of each of them denotes it. -/
theorem wellFormed_iff_parse (p : Piece) :
    ((∃ source, Piece.parse source = .ok p) ↔ p.WellFormed) ∧
    (p.WellFormed → Piece.parse p.text = .ok p) := by
  refine ⟨⟨?_, fun h => ⟨p.text, parse_text h⟩⟩, parse_text⟩
  rintro ⟨source, hparse⟩
  exact wellFormed_of_parse hparse

/-- A chord of a pitch and a rest with a volume, the chord of no notes and a note as high as they
can be written, above a part in which nothing happens. -/
def Piece.chordAndSummit : Piece :=
  let duration : Quantity := .product ⟨[⟨1, 3, by decide⟩]⟩
  let volume : Quantity := .product ⟨[⟨9, 8, by decide⟩]⟩
  let third : Note := ⟨.product ⟨[⟨3, 2, by decide⟩, ⟨5, 4, by decide⟩]⟩, duration, volume⟩
  let rest : Note := ⟨.product ⟨[.ofInt 0]⟩, duration, volume⟩
  let summit : Note := ⟨.product ⟨[.ofInt 9223372036854775807]⟩, .product ⟨[.ofInt 2]⟩, .one⟩
  ⟨[⟨[.chord [third, rest], .chord [], .note summit]⟩, ⟨[]⟩]⟩

theorem wellFormed_iff_parse_chordAndSummit :
    Piece.chordAndSummit.WellFormed ∧
    Piece.chordAndSummit.text = "<3/2*5/4 0>:1/3:9/8 <>:1 9223372036854775807:2;" ∧
    Piece.parse "<3/2*5/4 0>:1/3:9/8 <>:1 9223372036854775807:2;" = .ok Piece.chordAndSummit := by
  have hwell : Piece.chordAndSummit.WellFormed := by decide +kernel
  have htext : Piece.chordAndSummit.text
      = "<3/2*5/4 0>:1/3:9/8 <>:1 9223372036854775807:2;" := by decide +kernel
  have hparse := (wellFormed_iff_parse Piece.chordAndSummit).2 hwell
  rw [htext] at hparse
  exact ⟨hwell, htext, hparse⟩

end JustIntonation
