/-
JustIntonation/Toml/Scalar.lean

TOML's unquoted values: booleans, numbers, dates and times of day.

A value is classified from its whole text.  The forms exclude each other, so
the order in which they are tried only matters for a date, which is looked
for first.
-/
import JustIntonation.Binary64.Arithmetic
import JustIntonation.Binary64.Reading
import JustIntonation.Text.Digits
import JustIntonation.Toml.Value

namespace JustIntonation.Toml

open Text

/-! ### Numbers -/

/-- Digits with single underscores between them: the digits alone. -/
def separatedDigits? (base : Nat) : List Char → Option (List Char)
  | [] => none
  | [c] => if isDigitOf base c then some [c] else none
  | c :: d :: r =>
    if !isDigitOf base c then none
    else if d = '_' then (separatedDigits? base r).map (c :: ·)
    else (separatedDigits? base (d :: r)).map (c :: ·)

/-- The digits of a decimal's whole part, which is 0 or does not begin with 0. -/
def wholeDigits? : List Char → Option (List Char)
  | ['0'] => some ['0']
  | '0' :: _ => none
  | cs => separatedDigits? 10 cs

/-- An integer of 64 bits: decimal with an optional sign, or unsigned in base 16, 8 or 2. -/
def integer? (cs : List Char) : Option Int := do
  let n : Int ← match cs with
    | '0' :: 'x' :: r => (separatedDigits? 16 r).map fun ds => (valueOf 16 ds : Int)
    | '0' :: 'o' :: r => (separatedDigits? 8 r).map fun ds => (valueOf 8 ds : Int)
    | '0' :: 'b' :: r => (separatedDigits? 2 r).map fun ds => (valueOf 2 ds : Int)
    | cs =>
      let (negative, body) := Binary64.splitSign cs
      (wholeDigits? body).map fun ds =>
        if negative then -(valueOf 10 ds : Int) else (valueOf 10 ds : Int)
  if Binary64.minInt64 ≤ n ∧ n ≤ Binary64.maxInt64 then some n else none

/-- A digit, or an underscore between digits. -/
def isSeparatedDigit (c : Char) : Bool := c.isDigit || c = '_'

/-- What follows the fraction of a decimal: nothing, or an exponent. -/
def exponent? : List Char → Option Int
  | [] => some 0
  | c :: r =>
    if c = 'e' || c = 'E' then
      let (negative, body) := Binary64.splitSign r
      (separatedDigits? 10 body).map fun ds =>
        if negative then -(valueOf 10 ds : Int) else (valueOf 10 ds : Int)
    else none

/-- A decimal with a fraction, an exponent or both; a point has digits on both sides.  None if
it exceeds the greatest finite value. -/
def decimal? (negative : Bool) (body : List Char) : Option Binary64 := do
  let whole ← wholeDigits? (body.takeWhile isSeparatedDigit)
  let rest := body.dropWhile isSeparatedDigit
  let (fraction, rest) ← match rest with
    | [] => none
    | '.' :: r =>
      (separatedDigits? 10 (r.takeWhile isSeparatedDigit)).map (·, r.dropWhile isSeparatedDigit)
    | r => some ([], r)
  let exponent ← exponent? rest
  let x := Binary64.ofDecimal negative (Binary64.digitsValue (whole ++ fraction))
    (exponent - fraction.length)
  if x = Binary64.infinity false then none else some x

def float? (cs : List Char) : Option Binary64 :=
  let (negative, body) := Binary64.splitSign cs
  if body = ['i', 'n', 'f'] then some (Binary64.infinity negative)
  else if body = ['n', 'a', 'n'] then some (Binary64.nan negative)
  else decimal? negative body

/-! ### Dates -/

/-- Skip a number of exactly `width` digits within bounds, and give it. -/
def field? (width low high : Nat) (cs : List Char) : Option (Nat × List Char) :=
  let ds := cs.take width
  let n := valueOf 10 ds
  if ds.length = width && ds.all Char.isDigit && low ≤ n && n ≤ high then some (n, cs.drop width)
  else none

/-- Skip one character. -/
def skip? (x : Char) : List Char → Option (List Char)
  | c :: cs => if c = x then some cs else none
  | [] => none

def isLeapYear (year : Nat) : Bool := year % 4 = 0 && (year % 100 ≠ 0 || year % 400 = 0)

def daysIn (year month : Nat) : Nat :=
  if month = 2 then (if isLeapYear year then 29 else 28)
  else if month ∈ [4, 6, 9, 11] then 30
  else 31

/-- Skip a date, year, month and day. -/
def skipDate? (cs : List Char) : Option (List Char) := do
  let (year, cs) ← field? 4 0 9999 cs
  let (month, cs) ← field? 2 1 12 (← skip? '-' cs)
  let (_, cs) ← field? 2 1 (daysIn year month) (← skip? '-' cs)
  return cs

/-- Skip a time of day: hours, minutes, seconds and a fraction of a second.  A second may be a
leap second. -/
def skipTime? (lastHour : Nat) (cs : List Char) : Option (List Char) := do
  let (_, cs) ← field? 2 0 lastHour cs
  let (_, cs) ← field? 2 0 59 (← skip? ':' cs)
  let (_, cs) ← field? 2 0 60 (← skip? ':' cs)
  match cs with
  | '.' :: r => if (r.takeWhile Char.isDigit).isEmpty then none else some (r.dropWhile Char.isDigit)
  | r => some r

/-- The minutes of a distance from universal time, behind its sign. -/
def distance? (lastHour lastMinute : Nat) (cs : List Char) : Option Nat := do
  let (hours, cs) ← field? 2 0 lastHour cs
  let (minutes, cs) ← field? 2 0 lastMinute (← skip? ':' cs)
  if cs.isEmpty then some (60 * hours + minutes) else none

/-- How far dates and times go. -/
structure Calendar where
  lastHour : Nat
  /-- The distances from universal time that may be written. -/
  isDistance : List Char → Bool

/-- A day ends with its last minute. -/
def Calendar.strict : Calendar := ⟨23, fun cs => (distance? 23 59 cs).isSome⟩

/-- A day ends with hour 24, and a distance is any sum of hours and minutes up to a day. -/
def Calendar.wide : Calendar := ⟨24, fun cs => (distance? 99 99 cs).any (· ≤ 24 * 60)⟩

/-- Nothing, or the distance from universal time. -/
def Calendar.isOffset (calendar : Calendar) : List Char → Bool
  | [] => true
  | ['Z'] => true
  | ['z'] => true
  | c :: r => (c = '+' || c = '-') && calendar.isDistance r

/-- A date, a time of day, or both, then perhaps with an offset. -/
def Calendar.isDateTime (calendar : Calendar) (cs : List Char) : Bool :=
  match skipDate? cs with
  | some [] => true
  | some (c :: r) =>
    (c = 'T' || c = 't' || c = ' ') && (skipTime? calendar.lastHour r).any calendar.isOffset
  | none => skipTime? calendar.lastHour cs == some []

/-! ### All forms -/

/-- The value of an unquoted text. -/
def scalar? (cs : List Char) : Option Value :=
  if cs = ['t', 'r', 'u', 'e'] then some (.boolean true)
  else if cs = ['f', 'a', 'l', 's', 'e'] then some (.boolean false)
  else if Calendar.strict.isDateTime cs then some (.dateTime (String.ofList cs))
  else ((float? cs).map Value.float).or ((integer? cs).map Value.integer)

end JustIntonation.Toml
