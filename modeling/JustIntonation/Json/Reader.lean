/-
JustIntonation/Json/Reader.lean

Reading JSON text.

The grammar is the strict one: no comments, no trailing commas, no leading
zeros, no control characters inside strings.  Each reader takes the remaining
characters and gives a value with what is left; `readValue` and its
companions are bounded by a number of steps that `read` takes from the length
of the text.
-/
import JustIntonation.Json.Value
import JustIntonation.Text.Digits

namespace JustIntonation.Json

def isSpace (c : Char) : Bool := c = ' ' || c = '\n' || c = '\t' || c = '\r'

def skipSpace (cs : List Char) : List Char := cs.dropWhile isSpace

/-! ### Strings -/

/-- The code of four hexadecimal digits. -/
def hex4? (a b c d : Char) : Option Nat :=
  if [a, b, c, d].all (Text.isDigitOf 16) then some (Text.valueOf 16 [a, b, c, d]) else none

/-- What a backslash and one character stand for. -/
def escaped? (c : Char) : Option Nat :=
  match c with
  | '"' => some 34
  | '\\' => some 92
  | '/' => some 47
  | 'b' => some 8
  | 'f' => some 12
  | 'n' => some 10
  | 'r' => some 13
  | 't' => some 9
  | _ => none

/-- The codes of a string up to its closing quote. -/
def readCodes : List Char → Option (List Nat × List Char)
  | [] => none
  | '"' :: r => some ([], r)
  | '\\' :: 'u' :: a :: b :: c :: d :: r => do
    let n ← hex4? a b c d
    let (ns, rest) ← readCodes r
    return (n :: ns, rest)
  | '\\' :: e :: r => do
    let n ← escaped? e
    let (ns, rest) ← readCodes r
    return (n :: ns, rest)
  | c :: r => do
    if c.toNat < 32 then none
    let (ns, rest) ← readCodes r
    return (c.toNat :: ns, rest)

def isHighSurrogate (n : Nat) : Bool := 0xD800 ≤ n && n < 0xDC00
def isLowSurrogate (n : Nat) : Bool := 0xDC00 ≤ n && n < 0xE000

/-- The characters of a list of codes, surrogate pairs joined; none if half a pair is left. -/
def joinSurrogates : List Nat → Option (List Char)
  | [] => some []
  | [n] => if isHighSurrogate n || isLowSurrogate n then none else some [Char.ofNat n]
  | n :: m :: r =>
    if isHighSurrogate n then
      if isLowSurrogate m then
        (joinSurrogates r).map (Char.ofNat (0x10000 + (n - 0xD800) * 0x400 + (m - 0xDC00)) :: ·)
      else none
    else if isLowSurrogate n then none
    else (joinSurrogates (m :: r)).map (Char.ofNat n :: ·)

/-- A string behind its opening quote. -/
def readString (cs : List Char) : Option (Option String × List Char) := do
  let (codes, rest) ← readCodes cs
  return ((joinSurrogates codes).map String.ofList, rest)

/-! ### Numbers -/

/-- An exponent, if there is one; none when it lacks digits. -/
def readExponent : List Char → Option (Option Int × List Char)
  | c :: r =>
    if c = 'e' || c = 'E' then
      let (negative, ds) := Binary64.splitSign r
      let digits := ds.takeWhile Char.isDigit
      if digits.isEmpty then none
      else
        let n : Int := Binary64.digitsValue digits
        some (some (if negative then -n else n), ds.dropWhile Char.isDigit)
    else some (none, c :: r)
  | [] => some (none, [])

def readNumber (cs : List Char) : Option (Numeral × List Char) := do
  let (negative, cs) := match cs with
    | '-' :: r => (true, r)
    | r => (false, r)
  let (whole, cs) ← match cs with
    | '0' :: r => some (['0'], r)
    | r =>
      let ds := r.takeWhile Char.isDigit
      if ds.isEmpty then none else some (ds, r.dropWhile Char.isDigit)
  let (fraction, cs) ← match cs with
    | '.' :: r =>
      let ds := r.takeWhile Char.isDigit
      if ds.isEmpty then none else some (ds, r.dropWhile Char.isDigit)
    | r => some ([], r)
  let (exponent, cs) ← readExponent cs
  let integral := fraction.isEmpty && exponent.isNone
  let significand := Binary64.digitsValue (whole ++ fraction)
  let numeral : Numeral := ⟨negative, significand, exponent.getD 0 - fraction.length, integral⟩
  return (numeral, cs)

/-! ### Values -/

mutual

def readValue : Nat → List Char → Option (Value × List Char)
  | 0, _ => none
  | steps + 1, cs =>
    match skipSpace cs with
    | 'n' :: 'u' :: 'l' :: 'l' :: r => some (.null, r)
    | 't' :: 'r' :: 'u' :: 'e' :: r => some (.bool true, r)
    | 'f' :: 'a' :: 'l' :: 's' :: 'e' :: r => some (.bool false, r)
    | '"' :: r => (readString r).map fun (s, rest) => (.string s, rest)
    | '[' :: r =>
      match skipSpace r with
      | ']' :: r => some (.array [], r)
      | r => (readItems steps r).map fun (vs, rest) => (.array vs, rest)
    | '\x7b' :: r =>
      match skipSpace r with
      | '\x7d' :: r => some (.object [], r)
      | r => (readMembers steps r).map fun (ms, rest) => (.object ms, rest)
    | r => (readNumber r).map fun (n, rest) => (.number n, rest)

/-- One or more array items and the closing bracket. -/
def readItems : Nat → List Char → Option (List Value × List Char)
  | 0, _ => none
  | steps + 1, cs =>
    match readValue steps cs with
    | none => none
    | some (v, r) =>
      match skipSpace r with
      | ',' :: r => (readItems steps r).map fun (vs, rest) => (v :: vs, rest)
      | ']' :: r => some ([v], r)
      | _ => none

/-- One or more object members and the closing brace. -/
def readMembers : Nat → List Char → Option (List (Option String × Value) × List Char)
  | 0, _ => none
  | steps + 1, cs =>
    match skipSpace cs with
    | '"' :: r =>
      match readString r with
      | none => none
      | some (key, r) =>
        match skipSpace r with
        | ':' :: r =>
          match readValue steps r with
          | none => none
          | some (v, r) =>
            match skipSpace r with
            | ',' :: r => (readMembers steps r).map fun (ms, rest) => ((key, v) :: ms, rest)
            | '\x7d' :: r => some ([(key, v)], r)
            | _ => none
        | _ => none
    | _ => none

end

/-- The value of a text that holds one value and nothing else. -/
def read (text : String) : Option Value := do
  let cs := text.toList
  let (v, rest) ← readValue (2 * cs.length + 2) cs
  if (skipSpace rest).isEmpty then some v else none

end JustIntonation.Json
