import PacketQuery.Language.Expr
import PacketQuery.Language.Reference
/-!
Statements of the query language.
-/

namespace PacketQuery.Language

/-- The functions that make one value of many. -/
inductive Aggregate
  | sum
  | avg
  | min
  | max
  | count
  deriving DecidableEq, Repr

def Aggregate.name : Aggregate → String
  | sum => "sum"
  | avg => "avg"
  | min => "min"
  | max => "max"
  | count => "count"

/-- One column of the output. -/
inductive Item
  | field (name : String)
  | aggregate (function : Aggregate) (argument : Option String) (label : String)
  deriving DecidableEq, Repr

namespace Item

def name : Item → String
  | field name => name
  | aggregate _ _ label => label

/-- The column is computed by a function. -/
def isAggregate : Item → Bool
  | field _ => false
  | aggregate .. => true

end Item

/-- The columns asked for. -/
inductive Projection
  | wildcard
  | items (items : List Item)
  deriving DecidableEq, Repr

/-- Some column is computed by a function. -/
def Projection.hasAggregate : Projection → Bool
  | wildcard => false
  | items is => is.any Item.isAggregate

structure Statement where
  distinct : Bool
  projection : Projection
  sources : List String
  filter : Option Expr
  groupBy : List String
  orderBy : List String
  /-- The protocols named anywhere in the statement, in capitals and strictly ascending. -/
  protocols : List String
  networks : Networks
  top : Option UInt64
  /-- How many rows to leave out, and how many to give after them. -/
  limit : Option (UInt64 × UInt64)
  /-- The first and last second of the interval. -/
  interval : Option (Int64 × Int64)
  deriving Repr

end PacketQuery.Language
