/-
JustIntonation/Toml/Quoted.lean

TOML strings: basic ones between double quotes, with escapes, and literal
ones between single quotes, without; each on one line or, between tripled
quotes, over several.

A string is first cut off at its closing quotes with its escapes left in
place, and then the escapes are replaced.  All lines end in a line feed here.
-/
import JustIntonation.Text.Digits

namespace JustIntonation.Toml

/-- What may stand in a string or a comment: a tab, or any character that is no control
character. -/
def isPlain (c : Char) : Bool := c = '\t' || (0x20 ≤ c.toNat && c.toNat ≠ 0x7F)

def isBlank (c : Char) : Bool := c = ' ' || c = '\t'

inductive Quote where
  | basic
  | literal
deriving DecidableEq

def Quote.char : Quote → Char
  | .basic => '"'
  | .literal => '\x27'

/-! ### Extent -/

/-- Cut a string of one line off at its closing quote. -/
def cutLine (q : Quote) : List Char → Option (List Char × List Char)
  | [] => none
  | [c] => if c = q.char then some ([], []) else none
  | c :: d :: r =>
    if c = q.char then some ([], d :: r)
    else if !isPlain c then none
    else if c = '\\' && q = .basic then
      if isPlain d then (cutLine q r).map fun (s, rest) => (c :: d :: s, rest) else none
    else (cutLine q (d :: r)).map fun (s, rest) => (c :: s, rest)

/-- The quotes that end a string of several lines, if they stand here: three, and up to two
more in front of them that belong to the string. -/
def closing? (q : Quote) (cs : List Char) : Option (List Char × List Char) :=
  let run := cs.takeWhile (· = q.char)
  if run.length < 3 then none
  else
    let inside := min (run.length - 3) 2
    some (cs.take inside, cs.drop (inside + 3))

/-- Cut a string of several lines off at its closing quotes. -/
def cutLines (q : Quote) : List Char → Option (List Char × List Char)
  | [] => none
  | [_] => none
  | c :: d :: r =>
    match closing? q (c :: d :: r) with
    | some cut => some cut
    | none =>
      if !(isPlain c || c = '\n') then none
      else if c = '\\' && q = .basic then
        if isPlain d || d = '\n' then (cutLines q r).map fun (s, rest) => (c :: d :: s, rest)
        else none
      else (cutLines q (d :: r)).map fun (s, rest) => (c :: s, rest)

/-! ### Escapes -/

/-- The character of a code in hexadecimal; surrogates are none. -/
def hexChar? (ds : List Char) : Option Char :=
  let n := Text.valueOf 16 ds
  if ds.all (Text.isDigitOf 16) && n.isValidChar then some (Char.ofNat n) else none

/-- What a backslash and one character stand for. -/
def escaped? (c : Char) : Option Char :=
  match c with
  | '"' => some '"'
  | '\\' => some '\\'
  | 'b' => some '\x08'
  | 'f' => some '\x0c'
  | 'n' => some '\n'
  | 'r' => some '\r'
  | 't' => some '\t'
  | _ => none

/-- Whether a backslash here ends its line. -/
def endsLine (cs : List Char) : Bool := (cs.dropWhile isBlank).head? = some '\n'

/-- Replace the escapes.  Behind a backslash at the end of a line all blanks and line breaks
are left out; `skipping` is true between the two. -/
def unescape : Bool → List Char → Option (List Char)
  | _, [] => some []
  | _, '\\' :: 'u' :: a :: b :: c :: d :: r => do
    return (← hexChar? [a, b, c, d]) :: (← unescape false r)
  | _, '\\' :: 'U' :: a :: b :: c :: d :: e :: f :: g :: h :: r => do
    return (← hexChar? [a, b, c, d, e, f, g, h]) :: (← unescape false r)
  | _, '\\' :: c :: r =>
    if isBlank c || c = '\n' then
      if endsLine (c :: r) then unescape true r else none
    else do return (← escaped? c) :: (← unescape false r)
  | skipping, c :: r =>
    if skipping && (isBlank c || c = '\n') then unescape true r
    else (unescape false r).map (c :: ·)

/-- The text of a string as it was cut off. -/
def Quote.text? (q : Quote) (s : List Char) : Option String :=
  match q with
  | .basic => (unescape false s).map String.ofList
  | .literal => some (String.ofList s)

/-! ### Strings -/

/-- A string of one line, behind its opening quote. -/
def readLine (q : Quote) (cs : List Char) : Option (String × List Char) := do
  let (s, rest) ← cutLine q cs
  return (← q.text? s, rest)

/-- A string of several lines, behind its opening quotes.  A line break right behind them is
no part of it. -/
def readLines (q : Quote) (cs : List Char) : Option (String × List Char) := do
  let (s, rest) ← cutLines q (match cs with
    | '\n' :: r => r
    | r => r)
  return (← q.text? s, rest)

end JustIntonation.Toml
