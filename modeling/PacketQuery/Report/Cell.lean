import PacketQuery.Search.Result
import PacketQuery.Time.Calendar
/-!
The text of a single cell. Numbers that stand for addresses or moments are shown as such; null is
shown as nothing.
-/

namespace PacketQuery.Report

open Search (Column Display)

/-- The text of a value in a column shown in the given way. -/
def cell (display : Display) (v : Value) : String :=
  match display, v with
  | _, .null => ""
  | .ipv4, .int n =>
    if 0 ≤ n.toInt ∧ n.toInt < UInt32.size then Address.ipv4Text (UInt32.ofNat n.toInt.toNat)
    else toString n.toInt
  | .mac, .int n =>
    if 0 ≤ n.toInt then Address.macText (UInt64.ofNat n.toInt.toNat) else toString n.toInt
  | .timestamp, .int n => Time.text n.toInt
  | _, v => v.render

/-- The cells of a row, each with its column; values without a column are left out. -/
def cells (columns : List Column) (row : List Value) : List (Column × Value) :=
  columns.zip row

/-- The texts of a row. -/
def rowTexts (columns : List Column) (row : List Value) : List String :=
  (cells columns row).map fun (column, v) => cell column.display v

/-- Lines, each with its end. -/
def lines (ls : List String) : String :=
  String.join (ls.map (· ++ "\n"))

end PacketQuery.Report
