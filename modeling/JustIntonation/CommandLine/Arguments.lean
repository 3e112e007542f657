/-
JustIntonation/CommandLine/Arguments.lean

What is asked for on the command line.

    [-c FILE] [-v] COMMAND [options] FILE...

Options are read from left to right and may stand between the files.  The
value of an option stands behind it in the next argument or, behind `=` or
right behind a short name, in the same one.  The first thing that is wrong
decides, and so does a request for help or for the version.  An option may be
given once; `-c` and `-v` may be given once before the command and once
behind it.
-/
import JustIntonation.Binary64.Reading
import JustIntonation.Midi.File
import JustIntonation.Settings.Source

namespace JustIntonation.CommandLine

inductive Command where
  | midi
  | lilypond
  | scale
  | notes
  | table
deriving DecidableEq

def Command.ofName? : String → Option Command
  | "midi" => some .midi
  | "lilypond" => some .lilypond
  | "scale" => some .scale
  | "notes" => some .notes
  | "table" => some .table
  | _ => none

inductive Flag where
  | config
  | verbose
  | help
  | version
  | divisions
  | t
  | f
  | tuningMethod
  | bendRange
  | programs
  | json
deriving DecidableEq

namespace Flag

def short? : Flag → Option Char
  | .config => some 'c'
  | .verbose => some 'v'
  | .help => some 'h'
  | .version => some 'V'
  | .divisions => some 'e'
  | .t => some 't'
  | .f => some 'f'
  | .programs => some 'p'
  | _ => none

def long? : Flag → Option String
  | .config => some "config"
  | .verbose => some "verbose"
  | .help => some "help"
  | .version => some "version"
  | .divisions => some "edo"
  | .tuningMethod => some "tuning-method"
  | .bendRange => some "pitch-bend-range"
  | .programs => some "programs"
  | .json => some "json"
  | _ => none

def takesValue : Flag → Bool
  | .verbose | .help | .version | .json => false
  | _ => true

/-- The options in front of the command. -/
def general : List Flag := [.config, .verbose, .help, .version]

end Flag

/-- The options behind the command. -/
def Command.flags (c : Command) : List Flag :=
  [.config, .verbose, .help, .divisions] ++
    match c with
    | .midi => [.t, .f, .tuningMethod, .bendRange, .programs]
    | .lilypond => [.f]
    | .notes => [.json]
    | .scale | .table => []

/-- Why the arguments ask for no compilation. -/
inductive Stop where
  | help
  | version
  | usage
deriving DecidableEq

/-! ### Values -/

/-- What the options say. -/
structure Choices where
  config : Option String := none
  verbose : Bool := false
  divisions : Option UInt32 := none
  t : Option Binary64 := none
  f : Option Binary64 := none
  tuningMethod : Option Midi.TuningMethod := none
  bendRange : Option UInt32 := none
  programs : Option String := none
  json : Bool := false

/-- An integer of 32 bits with an optional sign. -/
def readWord? (text : String) : Option UInt32 :=
  let (negative, ds) := Binary64.splitSign text.toList
  let n := Text.valueOf 10 ds
  if ds.isEmpty || !ds.all Char.isDigit || (negative && n ≠ 0) || Settings.maxWord < n then none
  else some (UInt32.ofNat n)

/-- Fill what is still empty. -/
def once (old new : Option α) : Except Stop (Option α) :=
  match old, new with
  | none, some a => .ok (some a)
  | _, _ => .error .usage

/-- Take an option that has no value. -/
def Choices.raise (o : Choices) : Flag → Except Stop Choices
  | .help => .error .help
  | .version => .error .version
  | .verbose => if o.verbose then .error .usage else .ok { o with verbose := true }
  | .json => if o.json then .error .usage else .ok { o with json := true }
  | _ => .error .usage

/-- Take an option with its value. -/
def Choices.set (o : Choices) (flag : Flag) (value : String) : Except Stop Choices := do
  match flag with
  | .config => return { o with config := ← once o.config (some value |>.filter (!·.isEmpty)) }
  | .divisions => return { o with divisions := ← once o.divisions (readWord? value) }
  | .t => return { o with t := ← once o.t (Binary64.read value).toOption }
  | .f => return { o with f := ← once o.f (Binary64.read value).toOption }
  | .tuningMethod =>
    return { o with tuningMethod := ← once o.tuningMethod (Midi.TuningMethod.ofText? value) }
  | .bendRange => return { o with bendRange := ← once o.bendRange (readWord? value) }
  | .programs => return { o with programs := ← once o.programs (some value) }
  | .help | .version | .verbose | .json => throw .usage

/-! ### Words -/

/-- The arguments read so far, in front of the command or behind it. -/
structure Words where
  choices : Choices := {}
  files : List String := []
  /-- The option whose value comes next. -/
  pending : Option Flag := none
  /-- Behind `--` everything is a file. -/
  literal : Bool := false

/-- Not an option.  A hyphen alone is none. -/
def isOperand (word : String) : Bool := !word.startsWith "-" || word = "-"

/-- An option by its long name, with the value behind `=` if there is one. -/
def Words.long (flags : List Flag) (w : Words) (body : List Char) : Except Stop Words := do
  let name := String.ofList (body.takeWhile (· ≠ '='))
  match flags.find? fun flag => flag.long? = some name, body.dropWhile (· ≠ '=') with
  | none, _ => throw .usage
  | some flag, [] =>
    if flag.takesValue then return { w with pending := some flag }
    else return { w with choices := ← w.choices.raise flag }
  | some flag, _ :: value =>
    return { w with choices := ← w.choices.set flag (String.ofList value) }

/-- Options by their short names, the last perhaps with its value. -/
def Words.short (flags : List Flag) (w : Words) : List Char → Except Stop Words
  | [] => .ok w
  | c :: cs =>
    match flags.find? fun flag => flag.short? = some c with
    | none => .error .usage
    | some flag =>
      if flag.takesValue then
        match cs with
        | [] => .ok { w with pending := some flag }
        | '=' :: value => return { w with choices := ← w.choices.set flag (String.ofList value) }
        | value => return { w with choices := ← w.choices.set flag (String.ofList value) }
      else do Words.short flags { w with choices := ← w.choices.raise flag } cs

/-- A word that is a file; its name is not empty. -/
def Words.file (w : Words) (word : String) : Except Stop Words :=
  if word.isEmpty then .error .usage else .ok { w with files := w.files ++ [word] }

/-- Take the next word. -/
def Words.read (flags : List Flag) (w : Words) (word : String) : Except Stop Words := do
  if w.literal then w.file word
  else match w.pending with
    | some flag =>
      if isOperand word then
        return { w with choices := ← w.choices.set flag word, pending := none }
      else throw .usage
    | none =>
      if isOperand word then w.file word
      else match word.toList with
        | ['-', '-'] => return { w with literal := true }
        | '-' :: '-' :: body => w.long flags body
        | body => w.short flags (body.drop 1)

/-! ### Invocations -/

/-- A compilation that is asked for. -/
structure Invocation where
  command : Command
  choices : Choices
  files : List String

/-- The options in front of the command and those behind it; the latter decide. -/
def Choices.merge (outer inner : Choices) : Choices :=
  { inner with
    config := inner.config.or outer.config
    verbose := inner.verbose || outer.verbose }

/-- The arguments behind a command. -/
def readCommand (command : Command) (outer : Choices) (words : List String) :
    Except Stop Invocation := do
  let w ← words.foldlM (Words.read command.flags) {}
  if w.pending.isSome || w.files.isEmpty then throw .usage
  return ⟨command, outer.merge w.choices, w.files⟩

/-- What is asked for with the words behind `help`: at most one command is explained. -/
def helpStop : List String → Stop
  | [] => .help
  | [word] => if word = "help" || (Command.ofName? word).isSome then .help else .usage
  | _ => .usage

/-- The arguments from `w` on, in front of the command. -/
def readArguments (w : Words) : List String → Except Stop Invocation
  | [] => .error .usage
  | word :: words =>
    if w.pending.isNone && (isOperand word || word = "--") then
      match Command.ofName? word with
      | some command => readCommand command w.choices words
      | none => .error (if word = "help" then helpStop words else .usage)
    else do readArguments (← w.read Flag.general word) words

/-- The compilation that the arguments ask for. -/
def Invocation.ofArguments (arguments : List String) : Except Stop Invocation :=
  readArguments {} arguments

end JustIntonation.CommandLine
