/-
JustIntonation/Files/Path.lean

Names of files.

A path is text with `/` between its parts.  Only what the names themselves
say is looked at here: nothing is resolved and nothing needs to exist.
-/

namespace JustIntonation.Path

def isAbsolute (path : String) : Bool := path.toList.head? = some '/'

/-- A path below a base; an absolute one replaces the base. -/
def join (base path : String) : String :=
  if isAbsolute path || base.isEmpty then path
  else if base.toList.getLast? = some '/' then base ++ path
  else base ++ "/" ++ path

/-- The directory with its slash, empty if there is none, and the name behind it. -/
def split (path : String) : List Char × List Char :=
  let cs := path.toList.reverse
  ((cs.dropWhile (· ≠ '/')).reverse, (cs.takeWhile (· ≠ '/')).reverse)

/-- A name without its extension.  A point at the beginning starts no extension. -/
def stemOf (name : List Char) : List Char :=
  let reversed := name.reverse
  match reversed.dropWhile (· ≠ '.') with
  | [] => name
  | ['.'] => name
  | _ :: stem => stem.reverse

/-- The name of a file without directory and extension. -/
def stem (path : String) : String := String.ofList (stemOf (split path).2)

/-- Whether a name without its extension, but with the point in front of it, is `..`. -/
def leavesParent : List Char → Bool
  | '.' :: '.' :: extension => !extension.contains '.'
  | _ => false

/-- The path with another extension, or with one if it has none.  The old extension is taken
off first; if that leaves `..`, which names the directory above, nothing is put on. -/
def withExtension (path extension : String) : String :=
  let (directory, name) := split path
  if leavesParent name then String.ofList (directory ++ ['.', '.'])
  else String.ofList (directory ++ stemOf name) ++ "." ++ extension

/-! ### Expansion -/

/-- The name of the variable at the beginning of a path. -/
def variableOf? (path : String) : Option String :=
  match path.toList with
  | '$' :: rest => some (String.ofList (rest.takeWhile (· ≠ '/')))
  | _ => none

/-- Replace `~` at the beginning of a path by the home directory, or `$NAME` by the value of
that variable; where either is not known, the path stays as it is. -/
def expand (home : Option String) (environment : String → Option String) (path : String) :
    String :=
  match path.toList with
  | '~' :: '/' :: rest =>
    match home with
    | some base => join base (String.ofList rest)
    | none => path
  | '$' :: rest =>
    match (variableOf? path).bind environment with
    | none => path
    | some base =>
      match rest.dropWhile (· ≠ '/') with
      | [] => base
      | _ :: below => join base (String.ofList below)
  | _ => path

end JustIntonation.Path
