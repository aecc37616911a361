import PacketQuery.Report.Csv
import PacketQuery.Report.JsonLines
import PacketQuery.Report.Table
/-!
The forms in which a result is written, and the summary that goes with it.
-/

namespace PacketQuery.Report

open Search (Result)

/-- A form for the rows of a result. -/
inductive Format
  | table
  | csv
  | json
  deriving DecidableEq, Repr

def Format.name : Format → String
  | table => "table"
  | csv => "csv"
  | json => "json"

/-- The form of a name. -/
def Format.ofName? (name : String) : Option Format :=
  [Format.table, .csv, .json].find? (·.name == name)

/-- The rows of a result. -/
def Format.render (format : Format) (r : Result) : String :=
  match format with
  | table => Report.table r
  | csv => Report.csv r
  | json => jsonLines r

/-- The counts, the range of times if there is one, and the errors. -/
def summary (r : Result) : String :=
  let counts := "matched " ++ toString r.matched ++ " of " ++ toString r.searched
    ++ " candidate packets, " ++ toString r.rows.length ++ " rows"
  let range := match r.earliest, r.latest with
    | some first, some last =>
      ["time range " ++ Time.text (first / 1000000).toNat ++ " .. "
        ++ Time.text (last / 1000000).toNat]
    | _, _ => []
  lines (counts :: range ++ r.errors)

end PacketQuery.Report
