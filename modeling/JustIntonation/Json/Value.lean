/-
JustIntonation/Json/Value.lean

JSON values and their text.

A number is kept as it is written, as a significand and a decimal exponent
together with whether it was written as an integer, so that no precision is
lost before the reader of a field decides what it wants.  A string whose
escapes leave half of a surrogate pair has no text.
-/
import JustIntonation.Binary64.Reading

namespace JustIntonation.Json

/-- A number as written: `± significand · 10^exponent`. -/
structure Numeral where
  negative : Bool
  significand : Nat
  exponent : Int
  integral : Bool
deriving DecidableEq

namespace Numeral

def ofInt (n : Int) : Numeral := ⟨n < 0, n.natAbs, 0, true⟩

/-- The integer, if it was written as one.  A negative zero is no integer. -/
def toInt? (n : Numeral) : Option Int :=
  if !n.integral || (n.negative && n.significand = 0) then none
  else some (if n.negative then -(n.significand : Int) else n.significand)

def toBinary64 (n : Numeral) : Binary64 := .ofDecimal n.negative n.significand n.exponent

end Numeral

inductive Value where
  | null
  | bool (b : Bool)
  | number (n : Numeral)
  | string (text : Option String)
  | array (items : List Value)
  | object (members : List (Option String × Value))
deriving Inhabited

namespace Value

def ofInt (n : Int) : Value := .number (.ofInt n)

def ofString (s : String) : Value := .string (some s)

def ofMembers (members : List (String × Value)) : Value :=
  .object (members.map fun (key, v) => (some key, v))

end Value

/-! ### Text -/

def hexDigit (n : Nat) : Char := "0123456789abcdef".toList.getD n '0'

/-- A character inside quotes: quote, backslash and controls are escaped. -/
def escapeChar (c : Char) : List Char :=
  if c = '"' then ['\\', '"']
  else if c = '\\' then ['\\', '\\']
  else if c = '\n' then ['\\', 'n']
  else if c = '\r' then ['\\', 'r']
  else if c = '\t' then ['\\', 't']
  else if c.toNat = 8 then ['\\', 'b']
  else if c.toNat = 12 then ['\\', 'f']
  else if c.toNat < 32 then ['\\', 'u', '0', '0', hexDigit (c.toNat / 16), hexDigit (c.toNat % 16)]
  else [c]

def quoted (s : String) : String := "\"" ++ String.ofList (s.toList.flatMap escapeChar) ++ "\""

def Numeral.text (n : Numeral) : String :=
  let digits := (if n.negative then "-" else "") ++ toString n.significand
  if n.integral then digits else digits ++ "e" ++ toString n.exponent

mutual

/-- The value without any spacing. -/
def Value.compact : Value → String
  | .null => "null"
  | .bool b => if b then "true" else "false"
  | .number n => n.text
  | .string text => quoted (text.getD "")
  | .array items => "[" ++ ",".intercalate (compactItems items) ++ "]"
  | .object members => "\x7b" ++ ",".intercalate (compactMembers members) ++ "\x7d"

def compactItems : List Value → List String
  | [] => []
  | v :: vs => v.compact :: compactItems vs

def compactMembers : List (Option String × Value) → List String
  | [] => []
  | (key, v) :: ms => (quoted (key.getD "") ++ ":" ++ v.compact) :: compactMembers ms

end

/-- A line break followed by two spaces for every level. -/
def lineBreak (level : Nat) : String := "\n" ++ String.ofList (List.replicate (2 * level) ' ')

/-- Members of an array or an object between brackets, one a line; brackets alone when there
are none. -/
def bracketed (opening closing : String) (level : Nat) (members : List String) : String :=
  if members.isEmpty then opening ++ closing
  else opening ++ lineBreak (level + 1) ++ ("," ++ lineBreak (level + 1)).intercalate members
    ++ lineBreak level ++ closing

mutual

/-- The value with one member a line, indented by two spaces a level. -/
def Value.pretty (level : Nat) : Value → String
  | .array items => bracketed "[" "]" level (prettyItems (level + 1) items)
  | .object members => bracketed "\x7b" "\x7d" level (prettyMembers (level + 1) members)
  | .null => "null"
  | .bool b => if b then "true" else "false"
  | .number n => n.text
  | .string text => quoted (text.getD "")

def prettyItems (level : Nat) : List Value → List String
  | [] => []
  | v :: vs => v.pretty level :: prettyItems level vs

def prettyMembers (level : Nat) : List (Option String × Value) → List String
  | [] => []
  | (key, v) :: ms => (quoted (key.getD "") ++ ": " ++ v.pretty level) :: prettyMembers level ms

end

end JustIntonation.Json
