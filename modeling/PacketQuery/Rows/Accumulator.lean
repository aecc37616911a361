import PacketQuery.Language.Statement
import PacketQuery.Value.Order
/-!
The functions that make one value of the packets of a group. Null inputs are passed over, but
the packets that bring them are counted.
-/

namespace PacketQuery.Rows

open PacketQuery.Language (Aggregate)

/-- A sum: an integer until it leaves 64 bits or a float is added. -/
inductive Sum
  | int (total : Int64)
  | float (total : Float)
  deriving Repr

namespace Sum

def toFloat : Sum → Float
  | int n => Number.ofInt64 n
  | float x => x

def toValue : Sum → Value
  | int n => .int n
  | float x => .float x

/-- The exact sum of integers, where it fits 64 bits. -/
def integerSum? : Sum → Value → Option Int64
  | int n, .int m => Number.int64? (n.toInt + m.toInt)
  | _, _ => none

/-- The sum with a further value; one that is no number adds nothing. -/
def add (s : Sum) (v : Value) : Sum :=
  match s.integerSum? v with
  | some n => int n
  | none =>
    match v.float? with
    | some x => float (s.toFloat + x)
    | none => s

end Sum

/-- What a function has seen so far. -/
structure Accumulator where
  function : Aggregate
  sum : Sum
  /-- The least or greatest value, for the functions that ask for it. -/
  extreme : Option Value
  deriving Repr

namespace Accumulator

def start (function : Aggregate) : Accumulator :=
  ⟨function, .int 0, none⟩

/-- The value that stays of the one kept and a further one, which must come strictly before or
after in the order of the language. -/
def better (side : Ordering) (kept : Option Value) (v : Value) : Value :=
  match kept with
  | none => v
  | some old => if v.compare? old == some side then v else old

/-- With the input of one packet. -/
def add (a : Accumulator) (v : Value) : Accumulator :=
  if v.isNull then a
  else
    match a.function with
    | .sum | .avg => { a with sum := a.sum.add v }
    | .min => { a with extreme := some (better .lt a.extreme v) }
    | .max => { a with extreme := some (better .gt a.extreme v) }
    | .count => a

/-- The result for a group of `packets` packets. -/
def finish (a : Accumulator) (packets : UInt64) : Value :=
  match a.function with
  | .count => .int packets.toInt64
  | .sum => a.sum.toValue
  | .avg => if packets == 0 then .null else .float (a.sum.toFloat / packets.toFloat)
  | .min | .max => a.extreme.getD .null

/-- The result for a group whose packets bring the given inputs. -/
def run (function : Aggregate) (inputs : List Value) : Value :=
  (inputs.foldl add (start function)).finish (UInt64.ofNat inputs.length)

end Accumulator

end PacketQuery.Rows
