import PacketQuery.Language.Statement
import PacketQuery.Value.Basic
/-!
The columns of a result and how their values are to be shown.
-/

namespace PacketQuery.Search

open PacketQuery.Language (Item)

/-- How the values of a column are shown. -/
inductive Display
  /-- A 32-bit number as a dotted quad. -/
  | ipv4
  /-- A 48-bit number as octets. -/
  | mac
  /-- Seconds since the epoch as a date and a time of day. -/
  | timestamp
  | integer
  | float
  | text
  deriving DecidableEq, Repr

namespace Display

def name : Display → String
  | ipv4 => "ipv4"
  | mac => "mac"
  | timestamp => "timestamp"
  | integer => "int"
  | float => "float"
  | text => "text"

/-- The fields that hold an address, with the layers that have them. -/
def addressFields : List (List String × List String × Display) :=
  [(["ip", "ipv4"], ["src", "dst"], ipv4), (["arp"], ["spa", "tpa"], ipv4),
    (["eth", "ethernet"], ["src", "dst"], mac), (["arp"], ["sha", "tha"], mac)]

/-- The kind of address that a dotted name holds, in any case. -/
def ofAddress? (name : String) : Option Display :=
  match Text.cut '.' name with
  | none => none
  | some (layer, field) =>
    (addressFields.find? fun (layers, fields, _) =>
      layers.any (Text.same layer) && fields.any (Text.same field)).map (·.2.2)

/-- What the name of a field alone says, in any case. -/
def ofField? (name : String) : Option Display :=
  match ofAddress? name with
  | some display => some display
  | none => if Text.same name "frame.ts" then some timestamp else none

/-- What a value says. -/
def ofValue : Value → Display
  | .int _ | .bool _ => integer
  | .float _ => float
  | _ => text

/-- What the first value that is not null says. -/
def ofValues (values : List Value) : Display :=
  ((values.find? (!·.isNull)).map ofValue).getD text

/-- How a column is shown: as the name of its field says, else as its values say. A function that
gives back one of its inputs is shown as they are. -/
def ofItem (item : Item) (values : List Value) : Display :=
  match item with
  | .field name => (ofField? name).getD (ofValues values)
  | .aggregate .count _ _ => integer
  | .aggregate .avg _ _ => float
  | .aggregate .sum _ _ => ofValues values
  | .aggregate .min argument _ | .aggregate .max argument _ =>
    (argument.bind ofField?).getD (ofValues values)

end Display

structure Column where
  name : String
  display : Display
  deriving DecidableEq, Repr

end PacketQuery.Search
