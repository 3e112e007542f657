/-
JustIntonation/Notation/SyntaxError.lean

What is reported of a malformed text.
-/
import JustIntonation.Text.Position

namespace JustIntonation.Notation

/-- What the notation could have continued with. -/
inductive Expectation where
  | ratio
  | duration
  | volume
  | volumeRatio
  | operand
  | char (c : Char)
deriving DecidableEq

def Expectation.text : Expectation → String
  | .ratio => "a ratio"
  | .duration => "a duration"
  | .volume => "a volume"
  | .volumeRatio => "a volume ratio after '**'"
  | .operand => "a note, chord, or group after '*'"
  | .char c => String.ofList ['\x60', c, '\x60']

/-- All that was expected at one place, the innermost construct first. -/
def expectedText (expected : List Expectation) : String :=
  if expected.isEmpty then "unexpected input"
  else "expected " ++ " or ".intercalate (expected.map Expectation.text)

/-- A fault of the text: what is wrong, what stands there, and where, as line and column and
as byte offset. -/
structure SyntaxError where
  message : String
  token : String
  line : Nat
  column : Nat
  offset : Nat
deriving DecidableEq

namespace SyntaxError

/-- The error at a byte offset of a text; an offset beyond the end means the end. -/
def locate (source : String) (offset : Nat) (message : String) : SyntaxError :=
  let cs := source.toList
  let offset := min offset (Text.byteLength cs)
  let (before, after) := Text.splitAtByte offset cs
  let (line, column) := Text.lineAndColumn before
  { message, token := Text.tokenAt after, line, column, offset }

def text (e : SyntaxError) : String :=
  "syntax error at line " ++ toString e.line ++ ", column " ++ toString e.column ++ ": "
    ++ e.message ++ " (found " ++ e.token ++ ")"

end SyntaxError

end JustIntonation.Notation
