/-
JustIntonation/Binary64/Reading.lean

Reading double-precision values from decimal text.

A decimal is read as the exact rational it denotes and rounded once.  Very
large and very small exponents are settled by the position of the leading
digit, so that no text makes the rational itself unreasonably large.
-/
import JustIntonation.Binary64.Basic

namespace JustIntonation.Binary64

/-- The value nearest to `± digits · 10^exponent`. -/
def ofDecimal (negative : Bool) (digits : Nat) (exponent : Int) : Binary64 :=
  let width : Int := (Nat.toDigits 10 digits).length
  if digits = 0 then signedZero negative
  else if 400 < exponent + width then infinity negative
  else if exponent + width < -400 then signedZero negative
  else rounded negative (digits * (10 : Rat) ^ exponent)

/-- The number that a list of decimal digits denotes. -/
def digitsValue (ds : List Char) : Nat := ds.foldl (fun n c => 10 * n + (c.toNat - '0'.toNat)) 0

/-- Why a text is no number. -/
inductive ReadError where
  | empty
  | invalid
deriving DecidableEq

def ReadError.message : ReadError → String
  | .empty => "cannot parse float from empty string"
  | .invalid => "invalid float literal"

/-- Split off a leading sign: whether it is negative, and the rest. -/
def splitSign : List Char → Bool × List Char
  | '-' :: r => (true, r)
  | '+' :: r => (false, r)
  | r => (false, r)

/-- The exponent after the mantissa: nothing at all, or `e` with an optional sign and digits. -/
def readExponent : List Char → Option Int
  | [] => some 0
  | c :: r =>
    if c = 'e' || c = 'E' then
      let (negative, ds) := splitSign r
      if ds.isEmpty || !ds.all Char.isDigit then none
      else some (if negative then -(digitsValue ds : Int) else digitsValue ds)
    else none

/-- An unsigned decimal: digits with an optional point among them, at least one digit in all,
and an optional exponent. -/
def readUnsigned (negative : Bool) (cs : List Char) : Option Binary64 :=
  let whole := cs.takeWhile Char.isDigit
  let rest := cs.dropWhile Char.isDigit
  let (fraction, rest) := match rest with
    | '.' :: r => (r.takeWhile Char.isDigit, r.dropWhile Char.isDigit)
    | r => ([], r)
  if whole.isEmpty && fraction.isEmpty then none
  else (readExponent rest).map fun e =>
    ofDecimal negative (digitsValue (whole ++ fraction)) (e - fraction.length)

/-- Read a decimal, `inf`, `infinity` or `nan` in letters of either case, each with an
optional sign. -/
def read (text : String) : Except ReadError Binary64 :=
  let cs := text.toList
  if cs.isEmpty then .error .empty
  else
    let (negative, body) := splitSign cs
    let word := body.map Char.toLower
    if word = "inf".toList || word = "infinity".toList then .ok (infinity negative)
    else if word = "nan".toList then .ok (nan negative)
    else match readUnsigned negative body with
      | some x => .ok x
      | none => .error .invalid

end JustIntonation.Binary64
