/-
JustIntonation/Toml/Reader.lean

Reading TOML documents.

    document  = (lines statement trailing)* lines
    statement = "[" path "]"  |  "[[" path "]]"  |  path "=" value
    path      = key ("." key)*
    value     = string  |  scalar  |  "[" items "]"  |  "{" pairs "}"

A document is read into its statements, and these are carried out in order on
a table under construction; `Draft` has the rules for what may be added
where.  Each reader takes the remaining characters and gives what it read
with what is left.  Brackets nest less than 80 deep and a path has less than
80 parts; repetitions are bounded by the length of the text.
-/
import JustIntonation.Toml.DateTable
import JustIntonation.Toml.Draft
import JustIntonation.Toml.Quoted

namespace JustIntonation.Toml

def Reader (α : Type) : Type := List Char → Option (α × List Char)

/-- The most levels of brackets, and the most parts of a path. -/
def maxDepth : Nat := 79

/-! ### Blanks and line breaks -/

def skipBlanks (cs : List Char) : List Char := cs.dropWhile isBlank

/-- Skip blanks, line breaks and comments.  `comment` is true inside a comment. -/
def skipLines : Bool → List Char → Option (List Char)
  | _, [] => some []
  | true, c :: r =>
    if c = '\n' then skipLines false r
    else if isPlain c then skipLines true r
    else none
  | false, c :: r =>
    if c = '#' then skipLines true r
    else if isBlank c || c = '\n' then skipLines false r
    else some (c :: r)

/-- Nothing but blanks and a comment stands on the rest of this line. -/
def endLine (cs : List Char) : Option (List Char) :=
  match skipBlanks cs with
  | [] => some []
  | c :: r => if c = '\n' || c = '#' then some (c :: r) else none

/-! ### Keys -/

def isBareKey (c : Char) : Bool := c.isAlphanum || c = '_' || c = '-'

/-- A key without quotes, or a string of one line. -/
def readKey : Reader String := fun cs =>
  match cs with
  | '"' :: r => readLine .basic r
  | '\x27' :: r => readLine .literal r
  | cs =>
    let key := cs.takeWhile isBareKey
    if key.isEmpty then none else some (String.ofList key, cs.dropWhile isBareKey)

/-- Keys joined by points, with blanks around each. -/
def readPath : Nat → Reader (List String)
  | 0, _ => none
  | room + 1, cs =>
    match readKey (skipBlanks cs) with
    | none => none
    | some (key, r) =>
      match skipBlanks r with
      | '.' :: r => (readPath room r).map fun (keys, rest) => (key :: keys, rest)
      | r => some ([key], r)

/-! ### Values -/

/-- What ends an unquoted value. -/
def isDelimiter (c : Char) : Bool :=
  isBlank c || c = '\n' || c = '#' || c = ',' || c = ']' || c = '\x7d'

/-- The text of an unquoted value.  A date may be followed by a blank and a time of day. -/
def cutScalar (cs : List Char) : List Char × List Char :=
  let token := cs.takeWhile (!isDelimiter ·)
  match cs.dropWhile (!isDelimiter ·) with
  | ' ' :: r =>
    if skipDate? token == some [] && (field? 2 0 99 r).isSome then
      (token ++ ' ' :: r.takeWhile (!isDelimiter ·), r.dropWhile (!isDelimiter ·))
    else (token, ' ' :: r)
  | r => (token, r)

def readScalar : Reader Value := fun cs =>
  let (token, rest) := cutScalar cs
  (scalar? token).map fun v => (v, rest)

/-- A string in any of its four forms. -/
def readString : Reader Value := fun cs =>
  let string := fun (s, rest) => (Value.string s, rest)
  match cs with
  | '"' :: '"' :: '"' :: r => (readLines .basic r).map string
  | '"' :: r => (readLine .basic r).map string
  | '\x27' :: '\x27' :: '\x27' :: r => (readLines .literal r).map string
  | '\x27' :: r => (readLine .literal r).map string
  | _ => none

/-- The items of an array up to the closing bracket.  A comma may follow the last one. -/
def readItems (item : Reader Value) : Nat → Reader (List Value)
  | 0, _ => none
  | steps + 1, cs =>
    match skipLines false cs with
    | none => none
    | some (']' :: r) => some ([], r)
    | some r =>
      match item r with
      | none => none
      | some (v, r) =>
        match skipLines false r with
        | some (',' :: r) => (readItems item steps r).map fun (vs, rest) => (v :: vs, rest)
        | some (']' :: r) => some ([v], r)
        | _ => none

/-- A dotted key with its value. -/
def readPair (value : Reader Value) : Reader (List String × Value) := fun cs =>
  match readPath maxDepth cs with
  | some (path, '=' :: r) => (value (skipBlanks r)).map fun (v, rest) => ((path, v), rest)
  | _ => none

/-- The pairs of an inline table up to the closing brace; at least one. -/
def readPairs (value : Reader Value) : Nat → Reader (List (List String × Value))
  | 0, _ => none
  | steps + 1, cs =>
    match readPair value cs with
    | none => none
    | some (pair, r) =>
      match skipBlanks r with
      | ',' :: r => (readPairs value steps r).map fun (pairs, rest) => (pair :: pairs, rest)
      | '\x7d' :: r => some ([pair], r)
      | _ => none

/-- The table that pairs define, none if two of them are at odds. -/
def tableOfPairs (pairs : List (List String × Value)) : Option Table :=
  (pairs.foldlM (fun es (path, v) => Entries.assign v true path es) []).map Entries.finish

/-- A value with brackets at most `room` deep. -/
def readValue : Nat → Reader Value
  | _, '"' :: r => readString ('"' :: r)
  | _, '\x27' :: r => readString ('\x27' :: r)
  | room + 1, '[' :: r =>
    (readItems (readValue room) (r.length + 1) r).map fun (items, rest) => (.array items, rest)
  | room + 1, '\x7b' :: r =>
    match skipBlanks r with
    | '\x7d' :: r => some (.table [], r)
    | r =>
      match readPairs (readValue room) (r.length + 1) r with
      | none => none
      | some (pairs, rest) => (tableOfPairs pairs).map fun entries => (.table entries, rest)
  | _, cs => readScalar cs

/-! ### Statements -/

inductive Statement where
  /-- `[path]`: the pairs that follow belong to this table -/
  | table (path : List String)
  /-- `[[path]]`: they belong to a new element of this array -/
  | element (path : List String)
  /-- `path = value` -/
  | pair (path : List String) (v : Value)

def readStatement : Reader Statement := fun cs =>
  match cs with
  | '[' :: '[' :: r =>
    match readPath maxDepth r with
    | some (path, ']' :: ']' :: r) => some (.element path, r)
    | _ => none
  | '[' :: r =>
    match readPath maxDepth r with
    | some (path, ']' :: r) => some (.table path, r)
    | _ => none
  | cs => (readPair (readValue maxDepth) cs).map fun ((path, v), rest) => (.pair path v, rest)

/-- All statements, each on lines of its own. -/
def readStatements : Nat → List Char → Option (List Statement)
  | 0, _ => none
  | steps + 1, cs =>
    match skipLines false cs with
    | none => none
    | some [] => some []
    | some r =>
      match readStatement r with
      | none => none
      | some (s, r) =>
        match endLine r with
        | none => none
        | some r => (readStatements steps r).map (s :: ·)

/-! ### Documents -/

/-- The whole table so far, and the path of the last header. -/
structure Progress where
  header : List String := []
  entries : Entries := []

/-- Carry out a statement. -/
def Progress.step (p : Progress) : Statement → Option Progress
  | .table path =>
    (p.entries.within (Entries.openTable (path.getLast?.getD "")) path.dropLast).map (⟨path, ·⟩)
  | .element path =>
    (p.entries.within (Entries.openElement (path.getLast?.getD "")) path.dropLast).map (⟨path, ·⟩)
  | .pair path v =>
    (p.entries.within (Entries.assign v true path) p.header).map (⟨p.header, ·⟩)

/-- The table that a list of statements defines. -/
def tableOfStatements (statements : List Statement) : Option Table :=
  (statements.foldlM Progress.step {}).map fun p => p.entries.finish

/-- Lines may also end in a carriage return and a line feed. -/
def joinLineEnds : List Char → List Char
  | '\r' :: '\n' :: r => '\n' :: joinLineEnds r
  | c :: r => c :: joinLineEnds r
  | [] => []

/-- The characters behind a byte order mark. -/
def skipMark : List Char → List Char
  | '\uFEFF' :: r => r
  | cs => cs

/-- The table of a document. -/
def read (text : String) : Option Table :=
  let cs := joinLineEnds (skipMark text.toList)
  do Table.withDates (← tableOfStatements (← readStatements (cs.length + 1) cs))

end JustIntonation.Toml
