import PacketQuery.Address.Network
import PacketQuery.Time.Unit
/-!
Expressions of the query language.
-/

namespace PacketQuery.Language

/-- The operators before an operand. -/
inductive UnaryOp
  | negate
  | plus
  | not
  deriving DecidableEq, Repr

/-- The operators between two operands. -/
inductive BinaryOp
  | add
  | sub
  | mul
  | less
  | atMost
  | greater
  | atLeast
  | equal
  | notEqual
  | member
  | between
  | range
  | and
  | or
  | bitAnd
  | bitOr
  | bitXor
  | shiftLeft
  | shiftRight
  deriving DecidableEq, Repr

inductive Expr
  | integer (value : Int64)
  | float (value : Float)
  | boolean (value : Bool)
  | string (value : String)
  /-- A moment, in seconds since the epoch. -/
  | moment (seconds : Int64)
  /-- The moment `offset` units before the present. -/
  | now (offset : Int64) (unit : Time.Unit)
  | ipv4 (network : Network)
  | mac (address : UInt64)
  | bytes (value : Bytes)
  | field (name : String)
  /-- Bytes of a layer, counted from its start. -/
  | subscript (base : String) (offset length : Nat)
  | protocol (name : String)
  | group (inner : Expr)
  | unary (op : UnaryOp) (operand : Expr)
  | binary (op : BinaryOp) (left right : Expr)
  /-- The `*` that equals anything. -/
  | wildcard
  /-- Two or more expressions in parentheses. -/
  | sequence (members : List Expr)
  deriving Inhabited, Repr

/-- The expression without parentheses around it. -/
def Expr.ungrouped : Expr → Expr
  | group inner => inner.ungrouped
  | e => e

end PacketQuery.Language
