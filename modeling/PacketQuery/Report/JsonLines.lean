import PacketQuery.Number.Layout
import PacketQuery.Report.Cell
/-!
Rows as JSON objects, one to a line. The members stand in the order of their names, and of
columns with one name the last counts.
-/

namespace PacketQuery.Report

open Search (Column Display Result)

/-- A character as it stands in a JSON string. -/
def jsonChar (c : Char) : List Char :=
  if c == '"' then ['\\', '"']
  else if c == '\\' then ['\\', '\\']
  else if c == '\n' then ['\\', 'n']
  else if c == '\r' then ['\\', 'r']
  else if c == '\t' then ['\\', 't']
  else if c.toNat == 8 then ['\\', 'b']
  else if c.toNat == 12 then ['\\', 'f']
  else if c.toNat < 32 then '\\' :: 'u' :: '0' :: '0' :: Bytes.hexPair (UInt8.ofNat c.toNat)
  else [c]

def jsonString (s : String) : String :=
  String.ofList ('"' :: s.toList.flatMap jsonChar ++ ['"'])

/-- A JSON number; there is none for infinities and NaN. -/
def jsonFloat (x : Float) : String :=
  match Number.finite? x with
  | some f => Number.Layout.compact.finiteText f
  | none => "null"

/-- A value as JSON. What is shown as an address or a moment is a string. -/
def jsonValue (display : Display) (v : Value) : String :=
  match display, v with
  | _, .null => "null"
  | .ipv4, v | .mac, v | .timestamp, v => jsonString (cell display v)
  | _, .int n => toString n.toInt
  | _, .float x => jsonFloat x
  | _, .bool b => if b then "true" else "false"
  | _, v => jsonString v.render

/-- The members with one more, in strictly ascending order of their names. -/
def insertMember (name text : String) : List (String × String) → List (String × String)
  | [] => [(name, text)]
  | (other, old) :: rest =>
    match Order.text name other with
    | .lt => (name, text) :: (other, old) :: rest
    | .eq => (name, text) :: rest
    | .gt => (other, old) :: insertMember name text rest

/-- The members of a row's object. -/
def members (columns : List Column) (row : List Value) : List (String × String) :=
  (cells columns row).foldl
    (fun ms (column, v) => insertMember column.name (jsonValue column.display v) ms) []

def jsonObject (ms : List (String × String)) : String :=
  "\x7b" ++ Text.joined "," (ms.map fun (name, text) => jsonString name ++ ":" ++ text) ++ "\x7d"

/-- One line for every row. -/
def jsonLines (r : Result) : String :=
  lines (r.rows.map fun row => jsonObject (members r.columns row))

end PacketQuery.Report
