import PacketQuery.Frame.FieldValue
import PacketQuery.Number.Layout
/-!
The values that expressions compute, their coercions and their texts.
-/

namespace PacketQuery

/-- A value computed from a packet or a literal. -/
inductive Value
  /-- A missing field or an undefined result. -/
  | null
  | bool (value : Bool)
  | int (value : Int64)
  | float (value : Float)
  | text (value : String)
  | bytes (value : Bytes)
  /-- Everything from `low` to `high`, both included. -/
  | range (low high : Value)
  /-- Equal to anything that is not null. -/
  | any
  deriving Inhabited, Repr, BEq

namespace Value

def isNull : Value → Bool
  | null => true
  | _ => false

/-- The value lets a packet pass a filter. -/
def isTruthy : Value → Bool
  | null => false
  | bool b => b
  | int n => n != 0
  | float x => x != 0
  | text s => !s.isEmpty
  | bytes bs => !bs.isEmpty
  | range .. | any => true

/-- The value as an integer. A finite float loses its fraction and is clamped; one to eight bytes
are a big-endian number. -/
def int? : Value → Option Int64
  | bool b => some (if b then 1 else 0)
  | int n => some n
  | float x => (Number.finite? x).map fun f => Number.clampInt64 f.truncate
  | bytes bs =>
    if 1 ≤ bs.length ∧ bs.length ≤ 8 then some (Int64.ofNat (Bytes.toNatBE bs)) else none
  | _ => none

def float? : Value → Option Float
  | float x => some x
  | v => v.int?.map Number.ofInt64

/-- The value as a number of 32 bits. -/
def ipv4? (v : Value) : Option UInt32 :=
  v.int?.bind fun n =>
    if 0 ≤ n.toInt ∧ n.toInt < UInt32.size then some (UInt32.ofNat n.toInt.toNat) else none

/-- The value of a decoded field. Addresses of 32 and 48 bits are numbers; a number that does not
fit 64 bits with a sign is a float. -/
def ofField : FieldValue → Value
  | .u8 n => int (Int64.ofNat n.toNat)
  | .u16 n => int (Int64.ofNat n.toNat)
  | .u32 n => int (Int64.ofNat n.toNat)
  | .u64 n =>
    match Number.int64? n.toNat with
    | some i => int i
    | none => float n.toFloat
  | .i64 n => int n
  | .flag b => bool b
  | .ipv4 a => int (Int64.ofNat a.toNat)
  | .ipv6 a => text (Address.ipv6Text a)
  | .mac a => int (Int64.ofNat a.toNat)
  | .text s => text s
  | .bytes bs => bytes bs
  | .missing => null

def render : Value → String
  | null => "NULL"
  | bool b => if b then "true" else "false"
  | int n => toString n.toInt
  | float x => Number.floatText x
  | text s => s
  | bytes bs => Bytes.toHex bs
  | range low high => low.render ++ " to " ++ high.render
  | any => "*"

end Value

end PacketQuery
