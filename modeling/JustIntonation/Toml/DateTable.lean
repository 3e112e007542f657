/-
JustIntonation/Toml/DateTable.lean

Tables that stand for dates.

A table below the root whose first entry has a certain key is no table: the
entry's value, which has to be a string, spells a date or a time of day, and
the entries behind it do not count.
-/
import JustIntonation.Toml.Scalar

namespace JustIntonation.Toml

/-- The key that makes a table a date. -/
def dateKey : String := "$__toml_private_datetime"

/-- The date or time that a value spells. -/
def Value.toDate? : Value → Option Value
  | .string text =>
    if Calendar.wide.isDateTime text.toList then some (.dateTime text) else none
  | _ => none

mutual

/-- The value with its tables that stand for dates replaced; none if one spells no date. -/
def Value.withDates : Value → Option Value
  | .array items => (itemsWithDates items).map .array
  | .table [] => some (.table [])
  | .table ((key, v) :: rest) =>
    if key = dateKey then v.toDate?
    else do
      let first ← Value.withDates v
      let others ← entriesWithDates rest
      return .table ((key, first) :: others)
  | v => some v

def itemsWithDates : List Value → Option (List Value)
  | [] => some []
  | v :: vs => do return (← Value.withDates v) :: (← itemsWithDates vs)

def entriesWithDates : List (String × Value) → Option (List (String × Value))
  | [] => some []
  | (key, v) :: es => do return (key, ← Value.withDates v) :: (← entriesWithDates es)

end

/-- A root table with all dates below it replaced. -/
def Table.withDates (t : Table) : Option Table := entriesWithDates t

end JustIntonation.Toml
