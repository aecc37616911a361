import PacketQuery.Language.Statement
import PacketQuery.Rows.Distinct
import PacketQuery.Rows.Grouping
import PacketQuery.Search.Column
/-!
What a statement needs of each packet that passes its filter, and how its rows come from that.
-/

namespace PacketQuery.Search

open PacketQuery.Language (Expr Item Statement)

/-- The columns that `*` stands for. -/
def wildcardColumns : List String :=
  ["frame.ts", "frame.len", "eth.src", "eth.dst", "ip.src", "ip.dst", "ip.proto",
    "frame.protocols"]

/-- What is read of each packet and how rows are made of it. -/
structure Plan where
  filter : Option Expr
  items : List Item
  /-- Rows are made of groups of packets, not of single ones. -/
  grouped : Bool
  groupBy : List String
  /-- The field read for each input: one for each column, then those only sorted by. No field is
  read for a function without argument. -/
  inputs : List (Option String)
  /-- The inputs to sort by. -/
  orderKeys : List Nat
  deriving Repr

namespace Plan

/-- The field that a column reads. -/
def inputOf : Item → Option String
  | .field name => some name
  | .aggregate _ argument _ => argument

/-- The column of a name, in any case. -/
def columnOf? (items : List Item) (name : String) : Option Nat :=
  items.findIdx? fun item => Text.same item.name name

/-- The names that no column has. -/
def unprojected (items : List Item) (names : List String) : List String :=
  names.filter fun name => (columnOf? items name).isNone

/-- The inputs to sort by. A name that no column has is the next further input in a flat
result, and is passed over in a grouped one. -/
def keysOf (items : List Item) (grouped : Bool) : (next : Nat) → List String → List Nat
  | _, [] => []
  | next, name :: names =>
    match columnOf? items name with
    | some index => index :: keysOf items grouped next names
    | none =>
      if grouped then keysOf items grouped next names
      else next :: keysOf items grouped (next + 1) names

def ofStatement (s : Statement) : Plan :=
  let items := match s.projection with
    | .wildcard => wildcardColumns.map Item.field
    | .items items => items
  let grouped := s.projection.hasAggregate || !s.groupBy.isEmpty
  let extra := if grouped then [] else unprojected items s.orderBy
  { filter := s.filter
    items, grouped
    groupBy := s.groupBy
    inputs := items.map inputOf ++ extra.map some
    orderKeys := keysOf items grouped items.length s.orderBy }

/-- The order of rows by the keys, one after another. -/
def compareRows (keys : List Nat) (a b : List Value) : Ordering :=
  Order.lexicographic Value.order (keys.map fun k => (a[k]?).getD .null)
    (keys.map fun k => (b[k]?).getD .null)

/-- The rows in the order asked for, cut down to the columns. -/
def arrange (plan : Plan) (rows : List (List Value)) : List (List Value) :=
  (Order.sort (compareRows plan.orderKeys) rows).map fun row => row.take plan.items.length

/-- The first rows that TOP lets through. -/
def topRows (top : Option UInt64) (rows : List (List Value)) : List (List Value) :=
  match top with
  | some n => rows.take n.toNat
  | none => rows

/-- The rows that LIMIT lets through. -/
def limitRows (limit : Option (UInt64 × UInt64)) (rows : List (List Value)) :
    List (List Value) :=
  match limit with
  | some (offset, count) => (rows.drop offset.toNat).take count.toNat
  | none => rows

/-- The columns of the rows to be shown. -/
def columns (plan : Plan) (rows : List (List Value)) : List Column :=
  plan.items.zipIdx.map fun (item, index) =>
    ⟨item.name, .ofItem item (rows.filterMap (·[index]?))⟩

end Plan

end PacketQuery.Search
