/-
JustIntonation/Text/Position.lean

Places in a text.

A place is a byte offset in the UTF-8 encoding, as the notation's literals
and errors carry it; a reader is shown a line and a column, both counted from
one, the column in characters.
-/
import JustIntonation.Text.Whitespace

namespace JustIntonation.Text

/-- Number of bytes of a list of characters in UTF-8. -/
def byteLength (cs : List Char) : Nat := cs.foldr (fun c n => c.utf8Size + n) 0

/-- Split at a byte offset: the characters that begin before it, and the rest. -/
def splitAtByte : Nat → List Char → List Char × List Char
  | _, [] => ([], [])
  | 0, cs => ([], cs)
  | offset@(_ + 1), c :: cs =>
    let (before, after) := splitAtByte (offset - c.utf8Size) cs
    (c :: before, after)

/-- The line and column of the place behind the given characters. -/
def lineAndColumn (before : List Char) : Nat × Nat :=
  (before.count '\n' + 1, (before.reverse.takeWhile (· ≠ '\n')).length + 1)

/-- What stands at a place, for an error message: the run of characters up to the next blank
in single quotes, or a word for the end and for a blank. -/
def tokenAt (after : List Char) : String :=
  let token := after.takeWhile (!isBlank ·)
  if after.isEmpty then "end of input"
  else if token.isEmpty then "whitespace"
  else "'" ++ String.ofList token ++ "'"

end JustIntonation.Text
