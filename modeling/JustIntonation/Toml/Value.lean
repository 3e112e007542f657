/-
JustIntonation/Toml/Value.lean

What a TOML document denotes.

A table keeps its entries in the order in which they were defined; a key
occurs once.  A date or a time of day is kept as it is written.
-/
import JustIntonation.Binary64.Basic

namespace JustIntonation.Toml

inductive Value where
  | string (text : String)
  | integer (n : Int)
  | float (x : Binary64)
  | boolean (b : Bool)
  | dateTime (text : String)
  | array (items : List Value)
  | table (entries : List (String × Value))
deriving Inhabited

/-- The entries of a table. -/
abbrev Table : Type := List (String × Value)

def Table.find? (key : String) (t : Table) : Option Value := t.lookup key

end JustIntonation.Toml
