/-
JustIntonation/Settings/Text.lean

Settings written as a file.
-/
import JustIntonation.Settings.Basic
import JustIntonation.Settings.Error

namespace JustIntonation.Settings

/-- A key with its value on a line. -/
def pairLine (k : Key) (value : String) : String := k.text ++ " = " ++ value ++ "\n"

/-- A part as a table of its own, empty without a program. -/
def partLines (program : Option UInt8) : String :=
  "\n[[" ++ Key.parts.text ++ "]]\n" ++
    match program with
    | some p => pairLine .program (toString p)
    | none => ""

/-- The file that sets everything to these settings. -/
def toToml (s : Settings) : String :=
  "# Jird Configuration\n\n"
    ++ pairLine .t (s.t.format Binary64.general)
    ++ pairLine .f (s.f.format Binary64.general)
    ++ pairLine .tuningMethod ("\"" ++ s.tuningMethod.text ++ "\"")
    ++ pairLine .bendRange (toString s.bendRange)
    ++ (match s.divisions with
      | some d => pairLine .divisions (toString d)
      | none => "")
    ++ pairLine .verbose (if s.verbose then "true" else "false")
    ++ String.join (s.programs.map partLines)

end JustIntonation.Settings
