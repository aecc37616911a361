import PacketQuery.Order
import PacketQuery.Value.Basic
/-!
How values compare. Equality and order of the language leave null and unlike values out; the
order for sorting and grouping ranks every pair.
-/

namespace PacketQuery.Value

/-- A truth value, an integer or a float. -/
def isNumeric : Value → Bool
  | bool _ | int _ | float _ => true
  | _ => false

def isFloat : Value → Bool
  | float _ => true
  | _ => false

/-- The order of two values as numbers, floats if either is one. -/
def compareNumbers? (a b : Value) : Option Ordering :=
  if a.isFloat || b.isFloat then do
    Number.order? (← a.float?) (← b.float?)
  else do
    some (compare (← a.int?).toInt (← b.int?).toInt)

/-- The order of the language. Null compares with nothing. -/
def compare? : Value → Value → Option Ordering
  | null, _ | _, null => none
  | text a, text b => some (Order.text a b)
  | bytes a, bytes b => some (Order.bytes a b)
  | a, b => compareNumbers? a b

/-- The value lies between two bounds, both included. -/
def within? (v low high : Value) : Option Bool := do
  let fromLow ← v.compare? low
  let fromHigh ← v.compare? high
  some (fromLow != .lt && fromHigh != .gt)

/-- Equality as numbers, floats if either is one. -/
def equalNumbers? (a b : Value) : Option Bool :=
  if a.isFloat || b.isFloat then do
    some ((← a.float?) == (← b.float?))
  else do
    some ((← a.int?) == (← b.int?))

/-- The equality of the language. Null equals nothing and differs from nothing. -/
def equal? : Value → Value → Option Bool
  | null, _ | _, null => none
  | any, _ | _, any => some true
  | text a, text b => some (a == b)
  | bytes a, bytes b => some (a == b)
  | range low high, v | v, range low high => v.within? low high
  | a, b => if a.isNumeric || b.isNumeric then equalNumbers? a b else some false

/-- The rank of a value's kind; integers and floats share one. -/
def rank : Value → Nat
  | null => 0
  | bool _ => 1
  | int _ | float _ => 2
  | text _ => 3
  | bytes _ => 4
  | range .. => 5
  | any => 6

/-- The order for sorting: by rank, then within it. An integer and a float compare as floats, two
integers as integers. -/
def order : Value → Value → Ordering
  | bool a, bool b => compare a.toNat b.toNat
  | int a, int b => compare a.toInt b.toInt
  | int a, float y => Number.totalOrder (Number.ofInt64 a) y
  | float x, int b => Number.totalOrder x (Number.ofInt64 b)
  | float x, float y => Number.totalOrder x y
  | text a, text b => Order.text a b
  | bytes a, bytes b => Order.bytes a b
  | range low high, range low' high' => (order low low').then (order high high')
  | a, b => compare a.rank b.rank

end PacketQuery.Value
