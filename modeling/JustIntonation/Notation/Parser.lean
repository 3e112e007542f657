/-
JustIntonation/Notation/Parser.lean

From text to syntax tree.

    text    = part (";" part)*
    part    = ws (item ws)*
    item    = product "*" item  |  atom ("**" product)*
    atom    = product ":" product (":" product)?
            | "<" ws (product ws)* ">" ":" product (":" product)?
            | "(" part ")"
    product = ratio ("*" ratio)*
    ratio   = digits ("/" digits)?

Choices are ordered.  A reading that fails without having committed leaves
the way open for the next one (`miss`); behind `product "*"`, `product ":"`,
`<`, `(` and `**` the parser has committed, and a failure there ends the
parse (`fatal`) where it occurred.  Each failure carries its byte offset and
what was expected, the innermost construct first.

A parser is a function of the remaining text, so everything here is total:
repetitions are bounded by the length of the rest, and the nesting of items by
the number of characters of the whole text.
-/
import JustIntonation.Notation.Syntax
import JustIntonation.Notation.SyntaxError

namespace JustIntonation.Notation

/-- The rest of the text and the byte offset at which it starts. -/
structure Cursor where
  offset : Nat
  rest : List Char

structure Failure where
  offset : Nat
  expected : List Expectation

inductive Outcome (α : Type) where
  | done (value : α) (next : Cursor)
  | miss (failure : Failure)
  | fatal (failure : Failure)

/-- A parser reads a prefix of the rest. -/
def Parser (α : Type) : Type := Cursor → Outcome α

namespace Parser

variable {α β : Type}

/-! ### Combinators -/

def succeed (a : α) : Parser α := fun c => .done a c

def fail : Parser α := fun c => .miss ⟨c.offset, []⟩

def andThen (p : Parser α) (f : α → Parser β) : Parser β := fun c =>
  match p c with
  | .done a next => f a next
  | .miss e => .miss e
  | .fatal e => .fatal e

instance : Monad Parser where
  pure := succeed
  bind := andThen

/-- The first reading, or the second if the first missed. -/
def orElse (p q : Parser α) : Parser α := fun c =>
  match p c with
  | .miss _ => q c
  | outcome => outcome

/-- No way back: a miss becomes fatal. -/
def commit (p : Parser α) : Parser α := fun c =>
  match p c with
  | .miss e => .fatal e
  | outcome => outcome

/-- Name what stands here in the failures of `p`. -/
def expecting (what : Expectation) (p : Parser α) : Parser α := fun c =>
  match p c with
  | .done a next => .done a next
  | .miss e => .miss { e with expected := e.expected ++ [what] }
  | .fatal e => .fatal { e with expected := e.expected ++ [what] }

/-- `p`, or nothing if it misses. -/
def optional (p : Parser α) : Parser (Option α) := fun c =>
  match p c with
  | .done a next => .done (some a) next
  | .miss _ => .done none c
  | .fatal e => .fatal e

/-- `p` as often as it succeeds, at most `bound` times. -/
def repeatUpTo (p : Parser α) : Nat → Parser (List α)
  | 0 => succeed []
  | bound + 1 => fun c =>
    match p c with
    | .done a next =>
      match repeatUpTo p bound next with
      | .done as last => .done (a :: as) last
      | .miss e => .miss e
      | .fatal e => .fatal e
    | .miss _ => .done [] c
    | .fatal e => .fatal e

/-- `p` as often as it succeeds.  Every `p` used here reads at least one character, so the
length of the rest is bound enough. -/
def many (p : Parser α) : Parser (List α) := fun c => repeatUpTo p c.rest.length c

/-! ### Characters -/

/-- The given character. -/
def char (x : Char) : Parser Unit := fun c =>
  match c.rest with
  | y :: rest => if y = x then .done () ⟨c.offset + y.utf8Size, rest⟩ else .miss ⟨c.offset, []⟩
  | [] => .miss ⟨c.offset, []⟩

/-- The given character, named in failures. -/
def required (x : Char) : Parser Unit := expecting (.char x) (char x)

def isSpace (c : Char) : Bool := c = ' ' || c = '\t' || c = '\r' || c = '\n'

/-- Any run of space, tab, carriage return and line feed. -/
def spaces : Parser Unit := fun c =>
  .done () ⟨c.offset + (c.rest.takeWhile isSpace).length, c.rest.dropWhile isSpace⟩

/-- One or more ASCII digits. -/
def digits : Parser Literal := fun c =>
  let ds := c.rest.takeWhile Char.isDigit
  if ds.isEmpty then .miss ⟨c.offset, []⟩
  else
    let stop := c.offset + ds.length
    .done ⟨String.ofList ds, c.offset, stop⟩ ⟨stop, c.rest.dropWhile Char.isDigit⟩

/-! ### The grammar -/

def integer : Parser Literal := expecting .ratio digits

/-- A `/` without an integer behind it is left unread. -/
def ratio : Parser RatioLiteral := do
  let numerator ← integer
  let denominator ← optional (do char '/'; integer)
  return ⟨numerator, denominator⟩

/-- Stops before a `*` without a ratio behind it, so that `3/2*(...)` and `1**9/8` leave the
operator to the caller. -/
def product : Parser ProductLiteral := do
  let first ← ratio
  let rest ← many (do char '*'; ratio)
  return ⟨first :: rest⟩

def note : Parser Expr := do
  let frequency ← product
  char ':'
  let duration ← commit (expecting .duration product)
  let volume ← optional (do char ':'; commit (expecting .volume product))
  return .note frequency duration volume

/-- The whole of a chord behind `<` is committed, but its volume, being optional, may be
absent behind a `:`. -/
def chord : Parser Expr := do
  char '<'
  commit do
    spaces
    let frequencies ← many (do let f ← product; spaces; return f)
    required '>'
    required ':'
    let duration ← expecting .duration product
    let volume ← optional (do char ':'; expecting .volume product)
    return .chord frequencies duration volume

def sequence (item : Parser Expr) : Parser (List Expr) := do
  spaces
  many (do let e ← item; spaces; return e)

def group (item : Parser Expr) : Parser Expr := do
  char '('
  commit do
    let items ← sequence item
    required ')'
    return .group items

def atom (item : Parser Expr) : Parser Expr := orElse note (orElse chord (group item))

def multiplied (item : Parser Expr) : Parser Expr := do
  let factor ← product
  char '*'
  let body ← commit (expecting .operand item)
  return .multiply factor body

def amplified (item : Parser Expr) : Parser Expr := do
  let body ← atom item
  let factors ← many (do char '*'; char '*'; commit (expecting .volumeRatio product))
  return factors.foldl .amplify body

/-- An item whose items are nested less than `depth` deep. -/
def item : Nat → Parser Expr
  | 0 => fail
  | depth + 1 => orElse (multiplied (item depth)) (amplified (item depth))

def tree (depth : Nat) : Parser Tree := do
  let first ← sequence (item depth)
  let rest ← many (do char ';'; sequence (item depth))
  return ⟨first :: rest⟩

end Parser

/-- The syntax tree of a text.  What the grammar leaves unread is unexpected. -/
def Tree.parse (source : String) : Except SyntaxError Tree :=
  let cs := source.toList
  let error (f : Failure) := SyntaxError.locate source f.offset (expectedText f.expected)
  match Parser.tree (cs.length + 1) ⟨0, cs⟩ with
  | .done tree next => if next.rest.isEmpty then .ok tree else .error (error ⟨next.offset, []⟩)
  | .miss f => .error (error f)
  | .fatal f => .error (error f)

end JustIntonation.Notation
