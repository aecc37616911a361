import PacketQuery.Report.Cell
/-!
Rows as comma-separated values. A cell with a comma, a quotation mark or a line end stands in
quotation marks, and those inside it are doubled; the names of the columns stand as they are.
-/

namespace PacketQuery.Report

open Search (Result)

/-- The quotation marks doubled. -/
def doubled : List Char → List Char
  | [] => []
  | c :: cs => if c == '"' then '"' :: '"' :: doubled cs else c :: doubled cs

/-- The characters that ask for quotation marks. -/
def isSpecial (c : Char) : Bool :=
  c == ',' || c == '"' || c == '\n'

/-- The cell as it stands in its line. -/
def csvCell (text : String) : String :=
  if text.toList.any isSpecial then String.ofList ('"' :: doubled text.toList ++ ['"']) else text

/-- One line of names, then one for every row. -/
def csv (r : Result) : String :=
  lines (Text.joined "," r.columnNames ::
    r.rows.map fun row => Text.joined "," ((rowTexts r.columns row).map csvCell))

end PacketQuery.Report
