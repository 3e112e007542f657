/-
JustIntonation/Toml/Draft.lean

Tables while their document is being read.

A document names its tables in three ways: by a header, which defines the
table; in front of the last part of a header's path, which only implies it;
and in front of the last part of a dotted key, which defines it on the spot.
What may be added to a table later depends on how it came to be:

* a header may define a table that was only implied, and no other;
* a dotted key may add to a table that dotted keys have made, and go through
  one that was only implied, but not end in it;
* a path goes through an array of tables by its last element;
* nothing may be added to a value, an inline table included.
-/
import JustIntonation.Toml.Value

namespace JustIntonation.Toml

/-- How a table came to be. -/
inductive Origin where
  | header
  | implied
  | dotted
deriving DecidableEq

inductive Draft where
  | value (v : Value)
  | table (origin : Origin) (entries : List (String × Draft))
  /-- An array of tables, whose last element is still open. -/
  | tables (front : List (List (String × Draft))) (last : List (String × Draft))

/-- The entries of a table under construction. -/
abbrev Entries : Type := List (String × Draft)

/-- Change what stands under a key, or put something there. -/
def Entries.alter (f : Option Draft → Option Draft) (key : String) : Entries → Option Entries
  | [] => (f none).map fun d => [(key, d)]
  | (k, d) :: es =>
    if k = key then (f (some d)).map fun d => (k, d) :: es
    else (Entries.alter f key es).map ((k, d) :: ·)

/-- Put a value under a dotted key.  `here` says whether the key may end in this table. -/
def Entries.assign (v : Value) : Bool → List String → Entries → Option Entries
  | _, [], _ => none
  | here, [key], es =>
    es.alter (fun
      | none => if here then some (.value v) else none
      | some _ => none) key
  | _, key :: path, es =>
    es.alter (fun
      | none => (Entries.assign v true path []).map (.table .dotted)
      | some (.table .dotted inner) => (Entries.assign v true path inner).map (.table .dotted)
      | some (.table .implied inner) => (Entries.assign v false path inner).map (.table .implied)
      | some (.tables front last) => (Entries.assign v false path last).map (.tables front)
      | some _ => none) key

/-- Change the table at a header's path, implying those on the way that are missing. -/
def Entries.within (f : Entries → Option Entries) : List String → Entries → Option Entries
  | [], es => f es
  | key :: path, es =>
    es.alter (fun
      | none => (Entries.within f path []).map (.table .implied)
      | some (.table origin inner) => (Entries.within f path inner).map (.table origin)
      | some (.tables front last) => (Entries.within f path last).map (.tables front)
      | some (.value _) => none) key

/-- Define a table by its header.  It then stands behind the other entries, wherever it was
implied. -/
def Entries.openTable (key : String) (es : Entries) : Option Entries :=
  let place inner := (es.filter fun e => e.1 ≠ key) ++ [(key, .table .header inner)]
  match es.lookup key with
  | none => some (place [])
  | some (.table .implied inner) => some (place inner)
  | some _ => none

/-- Add an element to an array of tables. -/
def Entries.openElement (key : String) (es : Entries) : Option Entries :=
  es.alter (fun
    | none => some (.tables [] [])
    | some (.tables front last) => some (.tables (front ++ [last]) [])
    | some _ => none) key

/-! ### Finished tables -/

mutual

def Draft.finish : Draft → Value
  | .value v => v
  | .table _ entries => .table (finishEntries entries)
  | .tables front last => .array (finishElements front ++ [.table (finishEntries last)])

def finishEntries : List (String × Draft) → List (String × Value)
  | [] => []
  | (key, d) :: es => (key, d.finish) :: finishEntries es

def finishElements : List (List (String × Draft)) → List Value
  | [] => []
  | es :: rest => .table (finishEntries es) :: finishElements rest

end

/-- The finished table. -/
def Entries.finish (es : Entries) : Table := finishEntries es

end JustIntonation.Toml
