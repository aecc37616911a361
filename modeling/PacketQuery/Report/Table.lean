import PacketQuery.Report.Cell
/-!
Rows as a table drawn with characters. Every column is as wide as the longest line in it, but at
least one character, with a blank on either side; a cell may have several lines. The widths count
characters.
-/

namespace PacketQuery.Report

open Search (Result)

/-- The lines of a cell. -/
def cellLines (text : String) : List (List Char) :=
  Text.pieces '\n' text.toList

/-- The length of the longest line. -/
def width (ls : List (List Char)) : Nat :=
  (ls.map List.length).foldl max 0

/-- A horizontal rule: `fill` over the width of every column, `cross` between them, and an end on
either side. -/
def rule (left fill cross right : Char) (widths : List Nat) : String :=
  let spans := widths.map fun w => String.ofList (List.replicate (w + 2) fill)
  left.toString ++ Text.joined cross.toString spans ++ right.toString

/-- One drawn line: the texts filled up to the widths, between bars. -/
def drawnLine (widths : List Nat) (texts : List (List Char)) : String :=
  let spans := (widths.zip texts).map fun (w, text) =>
    " " ++ String.ofList (text ++ List.replicate (w - text.length) ' ') ++ " "
  "|" ++ Text.joined "|" spans ++ "|"

/-- The drawn lines of a row: as many as its highest cell has. -/
def drawnRow (widths : List Nat) (row : List (List (List Char))) : List String :=
  let height := (row.map List.length).foldl max 0
  (List.range height).map fun i => drawnLine widths (row.map fun ls => (ls[i]?).getD [])

/-- A row filled up with empty cells to `count` of them. -/
def filled (count : Nat) (row : List String) : List String :=
  row ++ List.replicate (count - row.length) ""

def table (r : Result) : String :=
  let count := r.columns.length
  let header := r.columnNames.map cellLines
  let rows := r.rows.map fun row => (filled count (rowTexts r.columns row)).map cellLines
  let widths := (List.range count).map fun i =>
    ((header :: rows).map fun row => width ((row[i]?).getD [])).foldl max 1
  let edge := rule '+' '-' '+' '+' widths
  let between := rule '|' '-' '+' '|' widths
  let body := (rows.map (drawnRow widths)).intersperse [between]
  lines ([edge] ++ drawnRow widths header ++ [rule '+' '=' '=' '+' widths] ++ body.flatten
    ++ [edge])

end PacketQuery.Report
