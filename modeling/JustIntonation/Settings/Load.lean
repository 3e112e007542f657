/-
JustIntonation/Settings/Load.lean

Settings from files and the environment.

The layers of the files are put over the defaults in order, and over them the
layer of the environment.  Ranges are checked at the end, so a value that a
later layer replaces may be out of range.
-/
import JustIntonation.Settings.Source
import JustIntonation.Toml.Reader

namespace JustIntonation.Settings

/-! ### Ranges -/

def isPositive (x : Binary64) : Bool := Binary64.lt 0 x && x.isFinite

def checkPositive (k : Key) (x : Binary64) : Except Error Unit :=
  if isPositive x then .ok () else refuse k (.notPositive x)

def checkProgram : Option UInt8 → Except Error Unit
  | none => .ok ()
  | some p => if 1 ≤ p ∧ p ≤ 128 then .ok () else refuse .program (.notProgram p.toNat)

/-- The first setting that is out of its range, in the order in which they are written. -/
def check (s : Settings) : Except Error Unit := do
  checkPositive .t s.t
  checkPositive .f s.f
  if s.bendRange = 0 then refuse .bendRange (.notPositive 0)
  if s.divisions = some 0 then refuse .divisions (.notPositive 0)
  s.programs.forM checkProgram

/-! ### Layering -/

/-- A file by its path, with its contents if it could be read. -/
structure SourceFile where
  path : String
  contents : Except FileFault String

def SourceFile.layer (file : SourceFile) : Except Error Layer := do
  let text ← file.contents.mapError (.unreadable file.path)
  match Toml.read text with
  | some table => Layer.ofTable table
  | none => throw (.malformed file.path)

/-- What settings were made of. -/
structure Sources where
  files : List String
  overrides : List Variable
deriving DecidableEq

/-- Layer the files over the defaults and the environment over the files. -/
def load (files : List SourceFile) (environment : Variable → Option String) :
    Except Error (Settings × Sources) := do
  let layers ← files.mapM SourceFile.layer
  let top ← Layer.ofEnvironment environment
  let s := (layers ++ [top]).foldl (fun s l => l.over s) {}
  check s
  return (s, ⟨files.map (·.path), Variable.all.filter fun v => (environment v).isSome⟩)

end JustIntonation.Settings
