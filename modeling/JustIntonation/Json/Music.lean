/-
JustIntonation/Json/Music.lean

Pieces as JSON.

A record is an object of its fields, a choice an object with one member that
names the variant, and a ratio the pair of its terms.  Reading takes a record
also as the array of its fields in order, ignores fields it does not know, and
refuses a field that is missing or repeated and a denominator of zero.  The
terms of a ratio are read as they are, reduced or not.
-/
import JustIntonation.Json.Reader
import JustIntonation.Music.Basic

namespace JustIntonation

namespace Json

/-! ### Shapes -/

/-- A choice: an object with the variant as its only member. -/
def variant (name : String) (v : Value) : Value := .ofMembers [(name, v)]

/-- The variant of a choice and its content. -/
def variant? : Value → Option (String × Value)
  | .object [(some name, v)] => some (name, v)
  | _ => none

/-- The only member of that name. -/
def member? (name : String) (members : List (Option String × Value)) : Option Value :=
  match members.filter (fun m => m.1 = some name) with
  | [(_, v)] => some v
  | _ => none

/-- The values of a record's fields in the given order. -/
def fields? (names : List String) : Value → Option (List Value)
  | .object members =>
    if members.all (fun m => m.1.isSome) then names.mapM fun name => member? name members else none
  | .array items => if items.length = names.length then some items else none
  | _ => none

def items? : Value → Option (List Value)
  | .array items => some items
  | _ => none

/-- An integer in the signed 64-bit range. -/
def integer? : Value → Option Int
  | .number n => n.toInt?.filter fun i => Binary64.minInt64 ≤ i && i ≤ Binary64.maxInt64
  | _ => none

end Json

open Json (Value variant variant? fields? items? integer?)

/-! ### Ratios and quantities -/

def Ratio.toJson (r : Ratio) : Value := .array [.ofInt r.num, .ofInt r.den]

def Ratio.ofJson? : Value → Option Ratio
  | .array [n, d] => do
    let n ← integer? n
    let d ← integer? d
    if h : d = 0 then none else some ⟨n, d, h⟩
  | _ => none

def Product.toJson (p : Product) : Value :=
  .ofMembers [("factors", .array (p.factors.map Ratio.toJson))]

def Product.ofJson? (v : Value) : Option Product :=
  match fields? ["factors"] v with
  | some [factors] => do return ⟨← (← items? factors).mapM Ratio.ofJson?⟩
  | _ => none

def Power.toJson (p : Power) : Value :=
  .ofMembers [("base", .ofInt p.base), ("exponent_numerator", .ofInt p.steps),
    ("exponent_denominator", .ofInt p.divisions)]

def Power.ofJson? (v : Value) : Option Power :=
  match fields? ["base", "exponent_numerator", "exponent_denominator"] v with
  | some [base, steps, divisions] => do
    return ⟨← integer? base, ← integer? steps, ← integer? divisions⟩
  | _ => none

def Quantity.toJson : Quantity → Value
  | .ratio r => variant "Ratio" r.toJson
  | .product p => variant "Product" p.toJson
  | .power p => variant "Power" p.toJson

def Quantity.ofJson? (v : Value) : Option Quantity :=
  match variant? v with
  | some ("Ratio", v) => (Ratio.ofJson? v).map .ratio
  | some ("Product", v) => (Product.ofJson? v).map .product
  | some ("Power", v) => (Power.ofJson? v).map .power
  | _ => none

/-! ### Music -/

def Note.toJson (n : Note) : Value :=
  .ofMembers [("frequency", n.frequency.toJson), ("duration", n.duration.toJson),
    ("volume", n.volume.toJson)]

def Note.ofJson? (v : Value) : Option Note :=
  match fields? ["frequency", "duration", "volume"] v with
  | some [frequency, duration, volume] => do
    return ⟨← Quantity.ofJson? frequency, ← Quantity.ofJson? duration, ← Quantity.ofJson? volume⟩
  | _ => none

def Event.toJson : Event → Value
  | .note n => variant "Note" n.toJson
  | .chord notes => variant "Chord" (.ofMembers [("notes", .array (notes.map Note.toJson))])

def Event.ofJson? (v : Value) : Option Event :=
  match variant? v with
  | some ("Note", v) => (Note.ofJson? v).map .note
  | some ("Chord", v) =>
    match fields? ["notes"] v with
    | some [notes] => do return .chord (← (← items? notes).mapM Note.ofJson?)
    | _ => none
  | _ => none

def Part.toJson (p : Part) : Value := .ofMembers [("events", .array (p.events.map Event.toJson))]

def Part.ofJson? (v : Value) : Option Part :=
  match fields? ["events"] v with
  | some [events] => do return ⟨← (← items? events).mapM Event.ofJson?⟩
  | _ => none

def Piece.toJson (p : Piece) : Value := .ofMembers [("parts", .array (p.parts.map Part.toJson))]

def Piece.ofJson? (v : Value) : Option Piece :=
  match fields? ["parts"] v with
  | some [parts] => do return ⟨← (← items? parts).mapM Part.ofJson?⟩
  | _ => none

/-- The piece as indented JSON text. -/
def Piece.jsonText (p : Piece) : String := p.toJson.pretty 0

/-- The piece that a JSON text holds. -/
def Piece.ofJsonText? (text : String) : Option Piece := do Piece.ofJson? (← Json.read text)

end JustIntonation
