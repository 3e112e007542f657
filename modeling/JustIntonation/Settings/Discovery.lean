/-
JustIntonation/Settings/Discovery.lean

Where settings are found.

There is a file of the system, one of the user and one in the working
directory, each read if it is there.  A file chosen by name takes the place of
the last of them, and it is read whether it is there or not, so that a wrong
name is reported.
-/
import JustIntonation.Files.Path
import JustIntonation.Settings.Load

namespace JustIntonation.Settings

def systemFile : String := "/etc/jird/config.toml"

def localFile : String := "jird.toml"

/-- The user's directory for settings: the configured one if it is absolute, else one in the
home directory. -/
def userDirectory (configured home : Option String) : Option String :=
  home.map fun base => (configured.filter Path.isAbsolute).getD (Path.join base ".config")

def userFile (configured home : Option String) : Option String :=
  (userDirectory configured home).map fun directory => Path.join directory "jird/config.toml"

variable {m : Type → Type} [Monad m]

/-- The home directory; an empty name is none. -/
def home (a : Access m) : m (Option String) := do
  return (← a.environment "HOME").filter fun name => !name.isEmpty

def expandPath (a : Access m) (path : String) : m String := do
  let value ← match Path.variableOf? path with
    | some name => a.environment name
    | none => pure none
  return Path.expand (← home a) (fun _ => value) path

/-- The paths of the files to read, in the order in which they are layered. -/
def discover (a : Access m) (chosen : Option String) : m (List String) := do
  let user := userFile (← a.environment "XDG_CONFIG_HOME") (← home a)
  let shared ← (systemFile :: user.toList).filterM a.present
  match chosen with
  | some path => return shared ++ [← expandPath a path]
  | none => return shared ++ (← [localFile].filterM a.present)

/-- Read the files and the environment, and layer them. -/
def loadFiles (a : Access m) (paths : List String) : m (Except Error (Settings × Sources)) := do
  let files ← paths.mapM fun path => do return SourceFile.mk path (← a.read path)
  let values ← Variable.all.mapM fun v => do return (v, ← a.environment v.name)
  return load files fun v => (values.lookup v).join

/-- The settings in force, with the file chosen by name if there is one. -/
def find (a : Access m) (chosen : Option String) : m (Except Error (Settings × Sources)) := do
  loadFiles a (← discover a chosen)

end JustIntonation.Settings
