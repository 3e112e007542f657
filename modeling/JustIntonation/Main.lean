/-
JustIntonation/Main.lean

The program on the command line.
-/
import JustIntonation.CommandLine.Run

namespace JustIntonation.Console

/-- The fault with an error number of the system, which may come negated. -/
def faultOfNumber (code : UInt32) (details : String) : FileFault :=
  match min code (0 - code) with
  | 20 => .notDirectory
  | 21 => .isDirectory
  | 36 => .nameTooLong
  | _ => .other details

/-- The fault that an error of the system means. -/
def faultOf : IO.Error → FileFault
  | .noFileOrDirectory .. => .missing
  | .permissionDenied .. => .denied
  | .inappropriateType _ code details => faultOfNumber code details
  | .invalidArgument _ code details => faultOfNumber code details
  | .otherError code details => faultOfNumber code details
  | error => .other (toString error)

def readText (path : String) : IO (Except FileFault String) := do
  try
    let bytes ← IO.FS.readBinFile path
    match String.fromUTF8? bytes with
    | some text => return .ok text
    | none => return .error .notText
  catch error => return .error (faultOf error)

def writeBytes (path : String) (bytes : List UInt8) : IO (Except FileFault Unit) := do
  try
    IO.FS.writeBinFile path ⟨bytes.toArray⟩
    return .ok ()
  catch error => return .error (faultOf error)

/-- What may not be opened is there all the same. -/
def present (path : String) : IO Bool := do
  try
    let _ ← IO.FS.Handle.mk path .read
    return true
  catch error => return faultOf error = .denied

/-- The machine's own files and environment. -/
def machine : Access IO where
  read := readText
  write := writeBytes
  present := present
  environment := fun name => IO.getEnv name

end JustIntonation.Console

def main (arguments : List String) : IO UInt32 := do
  let outcome ← JustIntonation.CommandLine.run JustIntonation.Console.machine arguments
  IO.print outcome.output
  IO.eprint outcome.errors
  return outcome.exit.toUInt32
