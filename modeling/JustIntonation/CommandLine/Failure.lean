/-
JustIntonation/CommandLine/Failure.lean

Why a compilation fails, and how it is told.
-/
import JustIntonation.Fault
import JustIntonation.Settings.Error

namespace JustIntonation.CommandLine

inductive Failure where
  /-- while the settings were loaded -/
  | loading (e : Settings.Error)
  /-- in the settings as the options left them -/
  | settings (e : Settings.Error)
  | reading (path : String) (fault : FileFault)
  | writing (path : String) (fault : FileFault)
  | parsing (path : String) (fault : Fault)
  | tempering (fault : Fault)
  | midi (path : String) (fault : Fault)
  | score (path : String) (fault : Fault)
deriving DecidableEq

/-- The messages behind an error of the settings, outermost first. -/
def settingsChain (e : Settings.Error) : List String :=
  match e with
  | .unreadable _ fault => [e.text, fault.text]
  | _ => [e.text]

/-- What failed, and the messages of its causes, outermost first. -/
def Failure.chain : Failure → String × List String
  | .loading e => ("Failed to load configuration", settingsChain e)
  | .settings e => (e.text, [])
  | .reading path fault => (s!"Failed to read {path}", [fault.text])
  | .writing path fault => (s!"Failed to write {path}", [fault.text])
  | .parsing path fault => (s!"Failed to parse {path}", [fault.text])
  | .tempering fault => (fault.text, [])
  | .midi path fault => (s!"Failed to build MIDI for {path}", [fault.text])
  | .score path fault => (s!"Failed to build LilyPond score for {path}", [fault.text])

/-- A message behind its mark, further lines of it indented as far. -/
def indented (mark message : String) : String :=
  let margin := "\n" ++ String.ofList (List.replicate mark.length ' ')
  mark ++ margin.intercalate (message.splitOn "\n") ++ "\n"

/-- The causes one a line, numbered if there are several. -/
def causesText : List String → String
  | [] => ""
  | [cause] => "\nCaused by:\n" ++ indented "    " cause
  | causes =>
    "\nCaused by:\n" ++
      String.join ((causes.zipIdx).map fun (cause, i) => indented s!"    {i}: " cause)

/-- What is shown of a failure. -/
def Failure.text (f : Failure) : String :=
  let (message, causes) := f.chain
  "Error: " ++ message ++ "\n" ++ causesText causes

end JustIntonation.CommandLine
