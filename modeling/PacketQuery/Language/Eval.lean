import PacketQuery.Frame.Packet
import PacketQuery.Language.Expr
import PacketQuery.Value.Order
/-!
The value of an expression for a packet. A field that the packet lacks is null, and null passes
through arithmetic and makes comparisons false.
-/

namespace PacketQuery.Language

/-- The bits of the first integer moved by the second, which must be less than 64. -/
def shift? (move : Int64 → Int64 → Int64) (a b : Int64) : Option Int64 :=
  if 0 ≤ b.toInt ∧ b.toInt < 64 then some (move a b) else none

namespace BinaryOp

/-- The exact result on integers, for sums, differences and products. -/
def onInts? (op : BinaryOp) (a b : Int) : Option Int :=
  match op with
  | add => some (a + b)
  | sub => some (a - b)
  | mul => some (a * b)
  | _ => none

/-- The result on floats, for sums, differences and products. -/
def onFloats? (op : BinaryOp) (x y : Float) : Option Float :=
  match op with
  | add => some (x + y)
  | sub => some (x - y)
  | mul => some (x * y)
  | _ => none

/-- The result on the bits of integers. -/
def onBits? (op : BinaryOp) (a b : Int64) : Option Int64 :=
  match op with
  | bitAnd => some (a &&& b)
  | bitOr => some (a ||| b)
  | bitXor => some (a ^^^ b)
  | shiftLeft => shift? (· <<< ·) a b
  | shiftRight => shift? (· >>> ·) a b
  | _ => none

/-- Two integers whose result fits 64 bits. -/
def fitting? (op : BinaryOp) : Value → Value → Option Int64
  | .int a, .int b => (op.onInts? a.toInt b.toInt).bind Number.int64?
  | _, _ => none

/-- Sum, difference or product: exact on integers where it fits, else of floats. -/
def ofNumbers (op : BinaryOp) (a b : Value) : Value :=
  match op.fitting? a b with
  | some n => .int n
  | none => ((do op.onFloats? (← a.float?) (← b.float?)).map Value.float).getD .null

/-- The result on two values that are not null. -/
def ofValues (op : BinaryOp) (a b : Value) : Value :=
  match op with
  | add | sub | mul => op.ofNumbers a b
  | _ => ((do op.onBits? (← a.int?) (← b.int?)).map Value.int).getD .null

/-- The result of arithmetic; null where an operand is. -/
def arithmetic (op : BinaryOp) (a b : Value) : Value :=
  if a.isNull || b.isNull then .null else op.ofValues a b

/-- The test that a comparison makes of the order of its sides. -/
def test? : BinaryOp → Option (Ordering → Bool)
  | less => some (· == .lt)
  | atMost => some (· != .gt)
  | greater => some (· == .gt)
  | atLeast => some (· != .lt)
  | _ => none

/-- A comparison, or else arithmetic. -/
def apply (op : BinaryOp) (a b : Value) : Value :=
  match op.test? with
  | some test => .bool ((a.compare? b).any test)
  | none => op.arithmetic a b

end BinaryOp

/-- The result of an operator before its operand. The least integer has no negative. -/
def UnaryOp.apply (op : UnaryOp) (v : Value) : Value :=
  match op with
  | plus => v
  | not => if v.isNull then .null else .bool (!v.isTruthy)
  | negate =>
    match v with
    | .int n => ((Number.int64? (-n.toInt)).map Value.int).getD .null
    | .float x => .float (-x)
    | v => (v.int?.map fun n => Value.int (-n)).getD .null

/-- Equality with the right side of `==`. A protocol asks for its layer, `*` always holds, an
IPv4 literal for an address in its network, and a hardware address for its number. -/
def equality (p : Packet) (left : Value) (right : Expr) (rightValue : Value) : Option Bool :=
  match right.ungrouped with
  | .protocol name => some (p.hasLayer name)
  | .wildcard => some true
  | .ipv4 network => left.int?.map fun _ => left.ipv4?.any network.contains
  | .mac address => left.int?.map fun n => n == Int64.ofNat address.toNat
  | _ => left.equal? rightValue

/-- Equality with one member of a list, given with its value. -/
def isMember (left : Value) : Expr × Value → Bool
  | (.ipv4 network, _) => left.ipv4?.any network.contains
  -- A network in parentheses comes here too and stands for its address alone.
  | (_, value) => left.equal? value == some true

def membership (left : Value) (members : List (Expr × Value)) : Option Bool :=
  if left.isNull then none else some (members.any (isMember left))

/-- Containment in the right side of `in`, which is no list: a network, a range, or a value. -/
def containment (left : Value) (right : Expr) (rightValue : Value) : Option Bool :=
  match right.ungrouped with
  | .ipv4 network => left.int?.map fun _ => left.ipv4?.any network.contains
  | _ =>
    match rightValue with
    | .range low high => left.within? low high
    | v => left.equal? v

mutual

/-- The value of an expression for a packet at the moment `now`. -/
def evaluate (p : Packet) (now : Int64) : Expr → Value
  | .integer n => .int n
  | .float x => .float x
  | .boolean b => .bool b
  | .string s => .text s
  | .moment seconds => .int seconds
  | .now offset unit => ((unit.shiftBack now offset).map Value.int).getD .null
  | .ipv4 network => .int (Int64.ofNat network.address.toNat)
  | .mac address => .int (Int64.ofNat address.toNat)
  | .bytes bs => .bytes bs
  | .field name => ((p.field? name).map Value.ofField).getD .null
  | .subscript base offset length => ((p.bytes? base offset length).map Value.bytes).getD .null
  | .protocol name => .bool (p.hasLayer name)
  | .group inner => evaluate p now inner
  | .unary op operand => op.apply (evaluate p now operand)
  | .binary op left right =>
    match op with
    | .and => .bool ((evaluate p now left).isTruthy && (evaluate p now right).isTruthy)
    | .or => .bool ((evaluate p now left).isTruthy || (evaluate p now right).isTruthy)
    | .equal =>
      .bool ((equality p (evaluate p now left) right (evaluate p now right)).getD false)
    -- Where the sides cannot be compared, neither of the two is true.
    | .notEqual =>
      .bool ((equality p (evaluate p now left) right (evaluate p now right)).any (!·))
    | .member | .between =>
      match members? p now right with
      | some members => .bool ((membership (evaluate p now left) members).getD false)
      | none =>
        .bool ((containment (evaluate p now left) right (evaluate p now right)).getD false)
    | .range => .range (evaluate p now left) (evaluate p now right)
    | op => op.apply (evaluate p now left) (evaluate p now right)
  | .wildcard => .any
  | .sequence members => ((evaluateAll p now members).getLast?.map (·.2)).getD .null

/-- The members of a list with their values; none of an expression that is no list. -/
def members? (p : Packet) (now : Int64) : Expr → Option (List (Expr × Value))
  | .group inner => members? p now inner
  | .sequence members => some (evaluateAll p now members)
  | _ => none

/-- The expressions with their values. -/
def evaluateAll (p : Packet) (now : Int64) : List Expr → List (Expr × Value)
  | [] => []
  | e :: es => (e, evaluate p now e) :: evaluateAll p now es

end

def accepts (p : Packet) (now : Int64) (filter : Expr) : Bool :=
  (evaluate p now filter).isTruthy

end PacketQuery.Language
