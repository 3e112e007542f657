/-
JustIntonation/Settings/Error.lean

Why settings are refused.
-/
import JustIntonation.Binary64.Reading
import JustIntonation.Binary64.Shortest
import JustIntonation.Files.Access
import JustIntonation.Midi.File
import JustIntonation.Text.Digits

namespace JustIntonation.Settings

/-- The keys of a settings file. -/
inductive Key where
  | t
  | f
  | tuningMethod
  | bendRange
  | divisions
  | verbose
  | parts
  /-- of a part -/
  | program
  /-- of all parts at once -/
  | programs
deriving DecidableEq

def Key.text : Key → String
  | .t => "t"
  | .f => "f"
  | .tuningMethod => "tuning_method"
  | .bendRange => "pitch_bend_range"
  | .divisions => "edo"
  | .verbose => "verbose"
  | .parts => "parts"
  | .program => "program"
  | .programs => "programs"

/-- The variables of the environment that set something. -/
inductive Variable where
  | t
  | f
  | tuningMethod
  | bendRange
  | divisions
  | verbose
deriving DecidableEq

namespace Variable

def name : Variable → String
  | .t => "JIRD_T"
  | .f => "JIRD_F"
  | .tuningMethod => "JIRD_TUNING_METHOD"
  | .bendRange => "JIRD_PITCH_BEND_RANGE"
  | .divisions => "JIRD_EDO"
  | .verbose => "JIRD_VERBOSE"

/-- All variables in the order in which they are read. -/
def all : List Variable := [.t, .f, .tuningMethod, .bendRange, .divisions, .verbose]

end Variable

/-- Where a value was found. -/
inductive Place where
  | key (k : Key)
  | environment (v : Variable)
deriving DecidableEq

def Place.text : Place → String
  | .key k => k.text
  | .environment v => v.name

/-- What a key takes. -/
inductive Kind where
  | number
  | integer
  | string
  | boolean
  | tables
  | table
  | list
deriving DecidableEq

def Kind.text : Kind → String
  | .number => "a number"
  | .integer => "an integer"
  | .string => "a string"
  | .boolean => "true or false"
  | .tables => "an array of tables"
  | .table => "a table"
  | .list => "a list like \"47,48\""

/-- What is wrong with a value. -/
inductive Flaw where
  | expected (kind : Kind)
  | outOfRange (n : Int)
  | unknownMethod (name : String)
  | notNumber (text : String) (error : Binary64.ReadError)
  | notInteger (text : String) (error : Text.IntegerError)
  | notBoolean (text : String)
  | notPositive (x : Binary64)
  | notProgram (program : Nat)
deriving DecidableEq

def Flaw.text : Flaw → String
  | .expected kind => "expected " ++ kind.text
  | .outOfRange n => s!"{n} is out of range"
  | .unknownMethod name => Midi.TuningMethod.unknownText name
  | .notNumber text error => s!"'{text}': {error.message}"
  | .notInteger text error => s!"'{text}': {error.message}"
  | .notBoolean text => s!"'{text}' is not a boolean"
  | .notPositive x => s!"{x.format Binary64.plain} is not positive"
  | .notProgram program => s!"{program} is outside 1..=128"

inductive Error where
  | unreadable (path : String) (fault : FileFault)
  | malformed (path : String)
  | invalid (place : Place) (flaw : Flaw)
deriving DecidableEq

def Error.text : Error → String
  | .unreadable path fault => s!"Failed to read config file {path}: {fault.text}"
  | .malformed path => s!"Failed to parse config file {path}: invalid TOML"
  | .invalid place flaw => s!"Invalid value for {place.text}: {flaw.text}"

end JustIntonation.Settings
