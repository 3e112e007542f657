/-
JustIntonation/Proofs/Json/Music.lean

Pieces survive their JSON text, and ratios over zero do not.

A decoder is `Faithful` to an encoder when the encodings are plain values, it
takes back every encoding whose numbers are 64-bit integers, and it refuses an
encoding in which the denominator of one ratio has been set to zero.  The
denominator is set where the ratio stands: `Replaced old new v w` says that
`w` is `v` with one occurrence of `old` replaced, and its text is then the
text of `v` with one passage replaced (`Replaced.exists_text`).  Lists and
one-field records keep faithfulness, so every type takes it from the ones it
is made of, ratios first.

Main result: `Piece.ofJsonText?_jsonText`.
-/
import JustIntonation.Json.Music
import JustIntonation.Proofs.Except
import JustIntonation.Proofs.Json.Reading

namespace JustIntonation

namespace Json

variable {v w old new : Value}

/-! ### One occurrence replaced -/

/-- One occurrence of `old` in the first value is `new` in the second, all else the same. -/
inductive Replaced (old new : Value) : Value → Value → Prop
  | here : Replaced old new old new
  | item (before after : List Value) {v w : Value} (h : Replaced old new v w) :
      Replaced old new (.array (before ++ v :: after)) (.array (before ++ w :: after))
  | member (before after : List (Option String × Value)) (key : Option String) {v w : Value}
      (h : Replaced old new v w) :
      Replaced old new (.object (before ++ (key, v) :: after))
        (.object (before ++ (key, w) :: after))

theorem Replaced.plain (h : Replaced old new v w) (hv : v.Plain) (hnew : new.Plain) :
    w.Plain := by
  induction h with
  | here => exact hnew
  | item before after h ih =>
    cases hv with
    | array hitems =>
      constructor
      simp only [List.forall_mem_append, List.forall_mem_cons] at hitems ⊢
      exact ⟨hitems.1, ih hitems.2.1, hitems.2.2⟩
  | member before after key h ih =>
    cases hv with
    | object hkeys hmembers =>
      constructor
      · simp only [List.forall_mem_append, List.forall_mem_cons] at hkeys ⊢
        exact hkeys
      · simp only [List.forall_mem_append, List.forall_mem_cons] at hmembers ⊢
        exact ⟨hmembers.1, ih hmembers.2.1, hmembers.2.2⟩

/-- The text around one of several members between brackets. -/
theorem exists_intercalate (sep : String) (before after : List String) :
    ∃ front back, ∀ text,
      sep.intercalate (before ++ text :: after) = front ++ text ++ back := by
  induction before with
  | nil =>
    cases after with
    | nil => exact ⟨"", "", fun text => by simp⟩
    | cons t after =>
      refine ⟨"", sep ++ sep.intercalate (t :: after), fun text => ?_⟩
      rw [List.nil_append, String.intercalate_cons_cons, String.empty_append, String.append_assoc]
  | cons t before ih =>
    obtain ⟨front, back, htext⟩ := ih
    refine ⟨t ++ sep ++ front, back, fun text => ?_⟩
    rw [List.cons_append, String.intercalate_cons_of_ne_nil (by simp), htext]
    simp only [String.append_assoc]

theorem exists_bracketed (opening closing : String) (level : ℕ) (before after : List String) :
    ∃ front back, ∀ text,
      bracketed opening closing level (before ++ text :: after) = front ++ text ++ back := by
  obtain ⟨front, back, htext⟩ := exists_intercalate ("," ++ lineBreak (level + 1)) before after
  refine ⟨opening ++ lineBreak (level + 1) ++ front, back ++ (lineBreak level ++ closing),
    fun text => ?_⟩
  rw [bracketed_of_ne_nil _ _ _ (by simp), htext]
  simp only [String.append_assoc]

/-- Where a value is replaced, its text is. -/
theorem Replaced.exists_text (h : Replaced old new v w) : ∀ level, ∃ inner front back,
    v.pretty level = front ++ old.pretty inner ++ back ∧
    w.pretty level = front ++ new.pretty inner ++ back := by
  induction h with
  | here => exact fun level => ⟨level, "", "", by simp, by simp⟩
  | item before after h ih =>
    intro level
    obtain ⟨inner, front, back, hv, hw⟩ := ih (level + 1)
    obtain ⟨opening, closing, htext⟩ := exists_bracketed "[" "]" level
      (before.map (Value.pretty (level + 1))) (after.map (Value.pretty (level + 1)))
    refine ⟨inner, opening ++ front, back ++ closing, ?_, ?_⟩
    · rw [pretty_array, List.map_append, List.map_cons, htext, hv]
      simp only [String.append_assoc]
    · rw [pretty_array, List.map_append, List.map_cons, htext, hw]
      simp only [String.append_assoc]
  | member before after key h ih =>
    -- The key stands in front of the passage, unchanged.
    intro level
    obtain ⟨inner, front, back, hv, hw⟩ := ih (level + 1)
    obtain ⟨opening, closing, htext⟩ := exists_bracketed "\x7b" "\x7d" level
      (before.map fun m => memberText (m.1.getD "") (m.2.pretty (level + 1)))
      (after.map fun m => memberText (m.1.getD "") (m.2.pretty (level + 1)))
    refine ⟨inner, opening ++ (quoted (key.getD "") ++ ": ") ++ front, back ++ closing, ?_, ?_⟩
    · rw [pretty_object, List.map_append, List.map_cons, htext, hv, memberText]
      simp only [String.append_assoc]
    · rw [pretty_object, List.map_append, List.map_cons, htext, hw, memberText]
      simp only [String.append_assoc]

/-! ### Replacement inside a shape -/

theorem Replaced.of_array {items : List Value} (h : Replaced old new (.array items) w) :
    (.array items = old ∧ w = new) ∨
      ∃ before v v' after, items = before ++ v :: after ∧ Replaced old new v v' ∧
        w = .array (before ++ v' :: after) := by
  cases h with
  | here => exact .inl ⟨rfl, rfl⟩
  | item before after h => exact .inr ⟨before, _, _, after, rfl, h, rfl⟩

theorem Replaced.of_object {members : List (Option String × Value)}
    (h : Replaced old new (.object members) w) (hold : .object members ≠ old) :
    ∃ before key v v' after, members = before ++ (key, v) :: after ∧ Replaced old new v v' ∧
      w = .object (before ++ (key, v') :: after) := by
  cases h with
  | here => exact absurd rfl hold
  | member before after key h => exact ⟨before, key, _, _, after, rfl, h, rfl⟩

end Json

open Json

/-- The pair of a ratio's terms with zero for the denominator. -/
def Ratio.zeroedJson (r : Ratio) : Value := .array [.ofInt r.num, .ofInt 0]

namespace Json

variable {r : Ratio} {α β : Type} {v w : Value}

/-- The encoding `w` is `v` but for the denominator of one ratio, which is zero. -/
abbrev Zeroed (r : Ratio) (v w : Value) : Prop := Replaced r.toJson r.zeroedJson v w

theorem not_zeroed_ofInt (i : ℤ) : ¬ Zeroed r (.ofInt i) w := by
  intro h
  cases h

theorem Zeroed.field {name : String} (h : Zeroed r (.ofMembers [(name, v)]) w) :
    ∃ v', w = .ofMembers [(name, v')] ∧ Zeroed r v v' := by
  obtain ⟨before, key, x, x', after, hmembers, hx, rfl⟩ := h.of_object (by rintro ⟨⟩)
  rcases before with _ | ⟨_, before⟩
  · cases hmembers
    exact ⟨x', rfl, hx⟩
  · simp at hmembers

theorem Zeroed.fields {a b c : String} {x y z : Value}
    (h : Zeroed r (.ofMembers [(a, x), (b, y), (c, z)]) w) :
    ∃ x' y' z', w = .ofMembers [(a, x'), (b, y'), (c, z')] ∧
      (Zeroed r x x' ∨ Zeroed r y y' ∨ Zeroed r z z') := by
  obtain ⟨before, key, u, u', after, hmembers, hu, rfl⟩ := h.of_object (by rintro ⟨⟩)
  -- One, two or no fields stand before the one that is changed.
  rcases before with _ | ⟨_, _ | ⟨_, _ | ⟨_, before⟩⟩⟩
  · cases hmembers
    exact ⟨u', y, z, rfl, .inl hu⟩
  · cases hmembers
    exact ⟨x, u', z, rfl, .inr (.inl hu)⟩
  · cases hmembers
    exact ⟨x, y, u', rfl, .inr (.inr hu)⟩
  · simp at hmembers

theorem fields?_one (name : String) (v : Value) :
    fields? [name] (.ofMembers [(name, v)]) = some [v] := by
  simp [fields?, Value.ofMembers, member?]

theorem fields?_three {a b c : String} (h : [a, b, c].Nodup) (x y z : Value) :
    fields? [a, b, c] (.ofMembers [(a, x), (b, y), (c, z)]) = some [x, y, z] := by
  obtain ⟨⟨hab, hac⟩, hbc⟩ : (a ≠ b ∧ a ≠ c) ∧ b ≠ c := by simpa using h
  simp [fields?, Value.ofMembers, member?, hab, hac, hbc, hab.symm, hac.symm, hbc.symm]

/-! ### Faithful decoders -/

/-- What `encode` writes `decode` takes back, and it refuses a zero denominator in it. -/
structure Faithful (encode : α → Value) (decode : Value → Option α) (InRange : α → Prop) :
    Prop where
  plain : ∀ a, (encode a).Plain
  ne_number : ∀ a n, encode a ≠ .number n
  decode_encode : ∀ {a}, InRange a → decode (encode a) = some a
  decode_zeroed : ∀ {a r w}, Zeroed r (encode a) w → decode w = none

/-- The items of an array, each decoded. -/
def decodeItems (decode : Value → Option α) (v : Value) : Option (List α) :=
  (items? v).bind (·.mapM decode)

theorem map_decodeItems (decode : Value → Option α) (make : List α → β) (v : Value) :
    (decodeItems decode v).map make = do return make (← (← items? v).mapM decode) := by
  rw [decodeItems, Option.map_bind]
  cases items? v with
  | none => rfl
  | some items => exact Option.map_eq_bind

theorem mapM_map_eq_some {encode : α → Value} {decode : Value → Option α} {as : List α}
    (h : ∀ a ∈ as, decode (encode a) = some a) : (as.map encode).mapM decode = some as := by
  rw [mapM_eq_some, List.forall₂_map_left_iff, List.forall₂_same]
  exact h

variable {encode : α → Value} {decode : Value → Option α} {InRange : α → Prop}

theorem Faithful.items (h : Faithful encode decode InRange) :
    Faithful (fun as => .array (as.map encode)) (decodeItems decode)
      (fun as => ∀ a ∈ as, InRange a) where
  plain as := .array (by simpa using fun a _ => h.plain a)
  ne_number _ _ := by rintro ⟨⟩
  decode_encode has := mapM_map_eq_some fun a ha => h.decode_encode (has a ha)
  decode_zeroed {as r w} hw := by
    rcases hw.of_array with ⟨heq, -⟩ | ⟨before, v, v', after, hsplit, hv, rfl⟩
    · -- The items of a ratio are numbers.
      cases as with
      | nil => cases heq
      | cons a as =>
        rw [Ratio.toJson, List.map_cons, Value.array.injEq, List.cons.injEq] at heq
        exact absurd heq.1 (h.ne_number a _)
    · obtain ⟨a, -, rfl⟩ : ∃ a ∈ as, encode a = v := by
        have hmem : v ∈ as.map encode := by rw [hsplit]; simp
        exact List.mem_map.mp hmem
      exact mapM_eq_none.mpr ⟨_, by simp, h.decode_zeroed hv⟩

theorem Faithful.plain_variant (h : Faithful encode decode InRange) (name : String) (a : α) :
    (variant name (encode a)).Plain :=
  .object (by simp) (by simpa using h.plain a)

/-- What holds one faithful encoding is refused with it. -/
theorem Faithful.decode_field_zeroed (h : Faithful encode decode InRange)
    {decode' : Value → Option β} {name : String} {make : α → β}
    (hdecode : ∀ v, decode' (.ofMembers [(name, v)]) = (decode v).map make) {a : α}
    (hw : Zeroed r (.ofMembers [(name, encode a)]) w) : decode' w = none := by
  obtain ⟨v', rfl, hv⟩ := hw.field
  rw [hdecode, h.decode_zeroed hv]
  rfl

/-- A record of one field. -/
theorem Faithful.record (h : Faithful encode decode InRange) {encode' : β → Value}
    {decode' : Value → Option β} {name : String} {content : β → α} (make : α → β)
    (hmake : ∀ b, make (content b) = b)
    (hencode : ∀ b, encode' b = .ofMembers [(name, encode (content b))])
    (hdecode : ∀ v, decode' (.ofMembers [(name, v)]) = (decode v).map make) :
    Faithful encode' decode' (fun b => InRange (content b)) where
  plain b := by
    rw [hencode]
    exact h.plain_variant name (content b)
  ne_number b n := by
    rw [hencode]
    rintro ⟨⟩
  decode_encode hb := by
    rw [hencode, hdecode, h.decode_encode hb, Option.map_some, hmake]
  decode_zeroed hw := by
    rw [hencode] at hw
    exact h.decode_field_zeroed hdecode hw

end Json

/-! ### Ratios and quantities -/

/-- A signed 64-bit integer. -/
def InInt64 (i : ℤ) : Prop := Binary64.minInt64 ≤ i ∧ i ≤ Binary64.maxInt64

instance : DecidablePred InInt64 := fun _ => instDecidableAnd

theorem Json.integer?_ofInt {i : ℤ} (h : InInt64 i) : integer? (.ofInt i) = some i := by
  have htoInt : (Numeral.ofInt i).toInt? = some i := by
    have hzero : ¬ (i < 0 ∧ i.natAbs = 0) := by omega
    rw [Numeral.toInt?, Numeral.ofInt, if_neg (by simpa using hzero)]
    congr 1
    split
    · rename_i hsign
      have hneg : i < 0 := of_decide_eq_true hsign
      show -(i.natAbs : ℤ) = i
      omega
    · rename_i hsign
      have hnonneg : ¬ i < 0 := fun hneg => hsign (decide_eq_true hneg)
      show (i.natAbs : ℤ) = i
      omega
  rw [Value.ofInt, integer?, htoInt, Option.filter_some, if_pos (by simpa [InInt64] using h)]

def Ratio.InRange (r : Ratio) : Prop := InInt64 r.num ∧ InInt64 r.den

def Product.InRange (p : Product) : Prop := ∀ r ∈ p.factors, r.InRange

def Power.InRange (p : Power) : Prop :=
  InInt64 p.base ∧ InInt64 p.steps ∧ InInt64 p.divisions

def Quantity.InRange : Quantity → Prop
  | .ratio r => r.InRange
  | .product p => p.InRange
  | .power p => p.InRange

instance : DecidablePred Ratio.InRange := fun _ => instDecidableAnd

instance : DecidablePred Quantity.InRange
  | .ratio r => inferInstanceAs (Decidable r.InRange)
  | .product p => inferInstanceAs (Decidable (∀ r ∈ p.factors, r.InRange))
  | .power p => inferInstanceAs
      (Decidable (InInt64 p.base ∧ InInt64 p.steps ∧ InInt64 p.divisions))

theorem Ratio.faithful : Faithful Ratio.toJson Ratio.ofJson? Ratio.InRange where
  plain r := .array (by simpa using ⟨.integer r.num, .integer r.den⟩)
  ne_number _ _ := by rintro ⟨⟩
  decode_encode {r} hr := by
    rw [Ratio.toJson, Ratio.ofJson?, integer?_ofInt hr.1, integer?_ofInt hr.2]
    exact dif_neg r.den_ne_zero
  decode_zeroed {r s w} hw := by
    rcases hw.of_array with ⟨-, rfl⟩ | ⟨before, v, v', after, hsplit, hv, rfl⟩
    · rw [Ratio.zeroedJson, Ratio.ofJson?, integer?_ofInt (by decide : InInt64 0)]
      cases integer? (.ofInt s.num) <;> rfl
    · have hmem : v ∈ [Value.ofInt r.num, Value.ofInt r.den] := by rw [hsplit]; simp
      obtain ⟨i, rfl⟩ : ∃ i, v = .ofInt i := by
        rcases List.mem_pair.mp hmem with rfl | rfl
        · exact ⟨_, rfl⟩
        · exact ⟨_, rfl⟩
      exact absurd hv (not_zeroed_ofInt i)

theorem Product.faithful : Faithful Product.toJson Product.ofJson? Product.InRange := by
  apply Ratio.faithful.items.record Product.mk (fun _ => rfl) (fun _ => rfl)
  intro v
  rw [Product.ofJson?, fields?_one]
  exact (map_decodeItems _ _ v).symm

theorem Power.faithful : Faithful Power.toJson Power.ofJson? Power.InRange where
  plain p := .object (by simp) (by
    simpa using ⟨.integer p.base, .integer p.steps, .integer p.divisions⟩)
  ne_number _ _ := by rintro ⟨⟩
  decode_encode {p} hp := by
    obtain ⟨hbase, hsteps, hdivisions⟩ := hp
    rw [Power.toJson, Power.ofJson?, fields?_three (by decide)]
    simp [integer?_ofInt hbase, integer?_ofInt hsteps, integer?_ofInt hdivisions]
  decode_zeroed hw := by
    obtain ⟨x, y, z, -, h | h | h⟩ := hw.fields
    · exact absurd h (not_zeroed_ofInt _)
    · exact absurd h (not_zeroed_ofInt _)
    · exact absurd h (not_zeroed_ofInt _)

theorem Quantity.faithful : Faithful Quantity.toJson Quantity.ofJson? Quantity.InRange where
  plain q := by
    cases q with
    | ratio r => exact Ratio.faithful.plain_variant _ r
    | product p => exact Product.faithful.plain_variant _ p
    | power p => exact Power.faithful.plain_variant _ p
  ne_number q n := by cases q <;> rintro ⟨⟩
  decode_encode {q} hq := by
    cases q with
    | ratio r => exact congrArg (Option.map Quantity.ratio) (Ratio.faithful.decode_encode hq)
    | product p => exact congrArg (Option.map Quantity.product) (Product.faithful.decode_encode hq)
    | power p => exact congrArg (Option.map Quantity.power) (Power.faithful.decode_encode hq)
  decode_zeroed {q r w} hw := by
    cases q with
    | ratio _ => exact Ratio.faithful.decode_field_zeroed (fun _ => rfl) hw
    | product _ => exact Product.faithful.decode_field_zeroed (fun _ => rfl) hw
    | power _ => exact Power.faithful.decode_field_zeroed (fun _ => rfl) hw

/-! ### Music -/

def Note.InRange (n : Note) : Prop :=
  n.frequency.InRange ∧ n.duration.InRange ∧ n.volume.InRange

def Event.InRange (e : Event) : Prop := ∀ n ∈ e.notes, n.InRange

def Part.InRange (p : Part) : Prop := ∀ e ∈ p.events, e.InRange

/-- Every number of the piece is a signed 64-bit integer. -/
def Piece.InRange (p : Piece) : Prop := ∀ part ∈ p.parts, part.InRange

instance : DecidablePred Note.InRange := fun _ => instDecidableAnd

instance : DecidablePred Piece.InRange := fun p =>
  inferInstanceAs (Decidable (∀ part ∈ p.parts, ∀ e ∈ part.events, ∀ n ∈ e.notes, n.InRange))

theorem Note.faithful : Faithful Note.toJson Note.ofJson? Note.InRange where
  plain n := .object (by simp) (by
    simpa using ⟨Quantity.faithful.plain n.frequency, Quantity.faithful.plain n.duration,
      Quantity.faithful.plain n.volume⟩)
  ne_number _ _ := by rintro ⟨⟩
  decode_encode {n} hn := by
    obtain ⟨hfrequency, hduration, hvolume⟩ := hn
    rw [Note.toJson, Note.ofJson?, fields?_three (by decide)]
    simp [Quantity.faithful.decode_encode hfrequency, Quantity.faithful.decode_encode hduration,
      Quantity.faithful.decode_encode hvolume]
  decode_zeroed {n r w} hw := by
    obtain ⟨x, y, z, rfl, h⟩ := hw.fields
    rw [Note.ofJson?, fields?_three (by decide)]
    rcases h with h | h | h
    · simp [Quantity.faithful.decode_zeroed h]
    · simp [Quantity.faithful.decode_zeroed h]
    · simp [Quantity.faithful.decode_zeroed h]

theorem Event.ofJson?_note (v : Value) :
    Event.ofJson? (variant "Note" v) = (Note.ofJson? v).map .note := rfl

theorem Event.ofJson?_chord (v : Value) :
    Event.ofJson? (variant "Chord" (.ofMembers [("notes", v)]))
      = (decodeItems Note.ofJson? v).map .chord := by
  have hvariant : variant? (variant "Chord" (.ofMembers [("notes", v)]))
      = some ("Chord", .ofMembers [("notes", v)]) := rfl
  rw [map_decodeItems, Event.ofJson?, hvariant]
  simp only [fields?_one]

theorem Event.faithful : Faithful Event.toJson Event.ofJson? Event.InRange where
  plain e := by
    cases e with
    | note n => exact Note.faithful.plain_variant "Note" n
    | chord notes =>
      have hnotes : (Value.ofMembers [("notes", .array (notes.map Note.toJson))]).Plain :=
        Note.faithful.items.plain_variant "notes" notes
      exact .object (by simp) (by simpa using hnotes)
  ne_number e n := by cases e <;> rintro ⟨⟩
  decode_encode {e} he := by
    cases e with
    | note n =>
      have hn : n.InRange := he n (List.mem_singleton_self n)
      rw [Event.toJson, Event.ofJson?_note, Note.faithful.decode_encode hn]
      rfl
    | chord notes =>
      have hnotes : ∀ n ∈ notes, n.InRange := he
      rw [Event.toJson, Event.ofJson?_chord, Note.faithful.items.decode_encode hnotes]
      rfl
  decode_zeroed {e r w} hw := by
    cases e with
    | note n => exact Note.faithful.decode_field_zeroed Event.ofJson?_note hw
    | chord notes =>
      -- The notes of a chord are the one field of the one member.
      obtain ⟨v, rfl, hv⟩ := hw.field
      obtain ⟨v', rfl, hv'⟩ := hv.field
      rw [← variant, Event.ofJson?_chord, Note.faithful.items.decode_zeroed hv']
      rfl

theorem Part.faithful : Faithful Part.toJson Part.ofJson? Part.InRange := by
  apply Event.faithful.items.record Part.mk (fun _ => rfl) (fun _ => rfl)
  intro v
  rw [Part.ofJson?, fields?_one]
  exact (map_decodeItems _ _ v).symm

theorem Piece.faithful : Faithful Piece.toJson Piece.ofJson? Piece.InRange := by
  apply Part.faithful.items.record Piece.mk (fun _ => rfl) (fun _ => rfl)
  intro v
  rw [Piece.ofJson?, fields?_one]
  exact (map_decodeItems _ _ v).symm

/-! ### Texts -/

/-- To read the text of a plain value is to decode the value. -/
theorem Piece.ofJsonText?_pretty {v : Value} (h : v.Plain) :
    Piece.ofJsonText? (v.pretty 0) = Piece.ofJson? v := by
  rw [Piece.ofJsonText?, h.read_pretty]
  rfl

theorem Ratio.plain_zeroedJson (r : Ratio) : r.zeroedJson.Plain :=
  .array (by simpa using ⟨.integer r.num, .integer 0⟩)

/-- **Notes are read back as they were written**, whatever the nesting and whichever the forms of
their quantities; and the text with the denominator of any one ratio changed to zero is refused. -/
theorem Piece.ofJsonText?_jsonText (p : Piece) (hp : p.InRange) :
    Piece.ofJsonText? p.jsonText = some p ∧
    ∀ (r : Ratio) (w : Value), Replaced r.toJson r.zeroedJson p.toJson w →
      (∃ level front back, p.jsonText = front ++ r.toJson.pretty level ++ back ∧
        w.pretty 0 = front ++ r.zeroedJson.pretty level ++ back) ∧
      Piece.ofJsonText? (w.pretty 0) = none := by
  have hplain : p.toJson.Plain := Piece.faithful.plain p
  -- With a zero in it the value is as plain as before: it is read, and then not decoded.
  refine ⟨?_, fun r w hw => ⟨hw.exists_text 0, ?_⟩⟩
  · rw [Piece.jsonText, Piece.ofJsonText?_pretty hplain, Piece.faithful.decode_encode hp]
  · rw [Piece.ofJsonText?_pretty (hw.plain hplain r.plain_zeroedJson),
      Piece.faithful.decode_zeroed hw]

/-- An empty part, and one with a chord of a single note. -/
theorem Piece.ofJsonText?_jsonText_chord :
    let volume : Quantity := .power ⟨2, -7, 12⟩
    let note : Note := ⟨.ratio ⟨-3, 2, by decide⟩, .product ⟨[]⟩, volume⟩
    let piece : Piece := ⟨[⟨[]⟩, ⟨[.chord [note], .chord []]⟩]⟩
    let zeroed : Value := .ofMembers [
      ("frequency", variant "Ratio" (.array [.ofInt (-3), .ofInt 0])),
      ("duration", (Quantity.product ⟨[]⟩).toJson), ("volume", volume.toJson)]
    let parts : List Value := [(Part.mk []).toJson, .ofMembers [("events",
      .array [variant "Chord" (.ofMembers [("notes", .array [zeroed])]), (Event.chord []).toJson])]]
    piece.InRange ∧ Piece.ofJsonText? piece.jsonText = some piece ∧
      Piece.ofJsonText? ((Value.ofMembers [("parts", .array parts)]).pretty 0) = none := by
  intro volume note piece zeroed parts
  have hrange : piece.InRange := by decide
  obtain ⟨hread, hzeroed⟩ := Piece.ofJsonText?_jsonText piece hrange
  have hnote : Zeroed ⟨-3, 2, by decide⟩ note.toJson zeroed :=
    .member [] _ _ (.member [] [] _ .here)
  have hpart : Zeroed ⟨-3, 2, by decide⟩ piece.toJson (.ofMembers [("parts", .array parts)]) :=
    .member [] [] _ (.item [_] [] (.member [] [] _ (.item [] [_]
      (.member [] [] _ (.member [] [] _ (.item [] [] hnote))))))
  exact ⟨hrange, hread, (hzeroed _ _ hpart).2⟩

end JustIntonation
