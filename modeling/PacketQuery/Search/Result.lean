import PacketQuery.Search.Column
/-!
What a search yields. The list of errors is never empty: without an error it holds one line that
says so.
-/

namespace PacketQuery.Search

/-- The line that stands for no error. -/
def noErrors : String := "no errors"

structure Result where
  /-- How many packets passed the filter. -/
  matched : Nat := 0
  /-- How many packets the catalogue offered. -/
  searched : Nat := 0
  /-- The earliest time of a packet that passed, in microseconds since the epoch. -/
  earliest : Option UInt64 := none
  /-- The latest time of a packet that passed. -/
  latest : Option UInt64 := none
  columns : List Column := []
  rows : List (List Value) := []
  /-- The fingerprints of the rows that stayed, where repeats were dropped. -/
  fingerprints : List String := []
  errors : List String := [noErrors]
  deriving Repr

namespace Result

def hasErrors (r : Result) : Bool :=
  r.errors != [noErrors]

/-- With a further error. The first takes the place of the line that says there is none. -/
def addError (r : Result) (message : String) : Result :=
  { r with errors := (if r.hasErrors then r.errors else []) ++ [message] }

def columnNames (r : Result) : List String :=
  r.columns.map (·.name)

/-- The index of the first column of a name, in any case. -/
def columnIndex? (r : Result) (name : String) : Option Nat :=
  r.columnNames.findIdx? (Text.same · name)

/-- The values of the column of a name; rows that are too short have none. -/
def column? (r : Result) (name : String) : Option (List Value) :=
  (r.columnIndex? name).map fun index => r.rows.filterMap (·[index]?)

end Result

end PacketQuery.Search
