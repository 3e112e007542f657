/-
JustIntonation/Settings/Source.lean

Layers of settings from TOML tables and from the environment.

In a file, `parts` is an array of tables with a `program` each; the shorter
`programs` names the programs in one list and is only looked at if there are
no `parts`.  Other keys are ignored.  A number may be written as an integer.

In the environment all values are text.  Blanks around them do not count.
-/
import JustIntonation.Settings.Basic
import JustIntonation.Settings.Error
import JustIntonation.Text.Whitespace
import JustIntonation.Toml.Value

namespace JustIntonation.Settings

/-- The result of reading something that may be absent. -/
def optionally (f : α → Except Error β) : Option α → Except Error (Option β)
  | none => .ok none
  | some a => (f a).map some

def refuse (k : Key) (flaw : Flaw) : Except Error α := .error (.invalid (.key k) flaw)

/-! ### Programs -/

/-- The greatest integer of eight bits, and of thirty-two. -/
def maxByte : Nat := 255
def maxWord : Nat := 4294967295

def readProgram (text : String) : Except Error (Option UInt8) :=
  let text := Text.trim text
  match Text.readInteger maxByte text with
  | .ok n => .ok (some (UInt8.ofNat n))
  | .error e => refuse .programs (.notInteger text e)

/-- Programs with commas between them. -/
def readPrograms (text : String) : Except Error (List (Option UInt8)) :=
  (text.splitOn ",").mapM readProgram

/-- Give the parts the programs of a list. -/
def withPrograms (text : String) (s : Settings) : Except Error Settings := do
  return { s with programs := ← readPrograms text }

/-! ### Files -/

def numberOf (k : Key) : Toml.Value → Except Error Binary64
  | .float x => .ok x
  | .integer n => .ok (Binary64.ofInt n)
  | _ => refuse k (.expected .number)

/-- An integer from 0 up to a limit. -/
def integerOf (k : Key) (limit : Nat) : Toml.Value → Except Error Nat
  | .integer n => if 0 ≤ n ∧ n ≤ limit then .ok n.toNat else refuse k (.outOfRange n)
  | _ => refuse k (.expected .integer)

def wordOf (k : Key) (v : Toml.Value) : Except Error UInt32 :=
  (integerOf k maxWord v).map UInt32.ofNat

def methodOf : Toml.Value → Except Error Midi.TuningMethod
  | .string name =>
    match Midi.TuningMethod.ofText? name with
    | some m => .ok m
    | none => refuse .tuningMethod (.unknownMethod name)
  | _ => refuse .tuningMethod (.expected .string)

def booleanOf : Toml.Value → Except Error Bool
  | .boolean b => .ok b
  | _ => refuse .verbose (.expected .boolean)

/-- One element of `parts`. -/
def partOf : Toml.Value → Except Error (Option UInt8)
  | .table entries =>
    optionally (fun v => (integerOf .program maxByte v).map UInt8.ofNat)
      (Toml.Table.find? "program" entries)
  | _ => refuse .parts (.expected .table)

def partsOf : Toml.Value → Except Error (List (Option UInt8))
  | .array items => items.mapM partOf
  | _ => refuse .parts (.expected .tables)

/-- The value of `programs`; a single program may be written as an integer. -/
def programsOf : Toml.Value → Except Error (List (Option UInt8))
  | .string text => readPrograms text
  | .integer n => readPrograms (toString n)
  | _ => refuse .programs (.expected .list)

/-- The layer of a file. -/
def Layer.ofTable (table : Toml.Table) : Except Error Layer := do
  let entry (k : Key) := table.find? k.text
  let t ← optionally (numberOf .t) (entry .t)
  let f ← optionally (numberOf .f) (entry .f)
  let bendRange ← optionally (wordOf .bendRange) (entry .bendRange)
  let divisions ← optionally (wordOf .divisions) (entry .divisions)
  let tuningMethod ← optionally methodOf (entry .tuningMethod)
  let verbose ← optionally booleanOf (entry .verbose)
  let programs ← match entry .parts with
    | some v => (partsOf v).map some
    | none => optionally programsOf (entry .programs)
  return { t, f, tuningMethod, bendRange, divisions, verbose, programs }

/-! ### Environment -/

def numberIn (v : Variable) (text : String) : Except Error Binary64 :=
  match Binary64.read (Text.trim text) with
  | .ok x => .ok x
  | .error e => .error (.invalid (.environment v) (.notNumber text e))

def wordIn (v : Variable) (text : String) : Except Error UInt32 :=
  match Text.readInteger maxWord (Text.trim text) with
  | .ok n => .ok (UInt32.ofNat n)
  | .error e => .error (.invalid (.environment v) (.notInteger text e))

def methodIn (text : String) : Except Error Midi.TuningMethod :=
  let name := Text.trim text
  match Midi.TuningMethod.ofText? name with
  | some m => .ok m
  | none => .error (.invalid (.environment .tuningMethod) (.unknownMethod name))

/-- A truth value in words of either case; nothing at all is false. -/
def booleanIn (text : String) : Except Error Bool :=
  let word := String.ofList ((Text.trim text).toList.map Char.toLower)
  if word ∈ ["1", "true", "yes", "on"] then .ok true
  else if word ∈ ["", "0", "false", "no", "off"] then .ok false
  else .error (.invalid (.environment .verbose) (.notBoolean text))

/-- The layer of an environment. -/
def Layer.ofEnvironment (environment : Variable → Option String) : Except Error Layer := do
  let t ← optionally (numberIn .t) (environment .t)
  let f ← optionally (numberIn .f) (environment .f)
  let tuningMethod ← optionally methodIn (environment .tuningMethod)
  let bendRange ← optionally (wordIn .bendRange) (environment .bendRange)
  let divisions ← optionally (wordIn .divisions) (environment .divisions)
  let verbose ← optionally booleanIn (environment .verbose)
  return { t, f, tuningMethod, bendRange, divisions, verbose }

end JustIntonation.Settings
