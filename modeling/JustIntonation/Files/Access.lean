/-
JustIntonation/Files/Access.lean

What a program needs of the machine it runs on: files and the variables of
its environment.

`Access m` is this interface in a monad `m`.  Programs are written against
it, so that they run on the file system as well as on a table of files.
-/

namespace JustIntonation

/-- Why a file cannot be read or written. -/
inductive FileFault where
  | missing
  | notDirectory
  | isDirectory
  | denied
  | nameTooLong
  | notText
  | other (message : String)
deriving DecidableEq

def FileFault.text : FileFault → String
  | .missing => "No such file or directory (os error 2)"
  | .notDirectory => "Not a directory (os error 20)"
  | .isDirectory => "Is a directory (os error 21)"
  | .denied => "Permission denied (os error 13)"
  | .nameTooLong => "File name too long (os error 36)"
  | .notText => "stream did not contain valid UTF-8"
  | .other message => message

structure Access (m : Type → Type) where
  /-- The contents of a text file. -/
  read : String → m (Except FileFault String)
  write : String → List UInt8 → m (Except FileFault Unit)
  /-- Whether a path leads to a file or a directory. -/
  present : String → m Bool
  /-- The value of a variable of the environment. -/
  environment : String → m (Option String)

end JustIntonation
