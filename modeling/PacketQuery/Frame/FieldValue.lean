import PacketQuery.Address.Basic
import PacketQuery.Number.Double
/-!
The values of decoded header fields: numbers of the width they have on the wire, flags,
addresses, text and raw bytes.
-/

namespace PacketQuery

/-- The value of one decoded field. -/
inductive FieldValue
  | u8 (value : UInt8)
  | u16 (value : UInt16)
  | u32 (value : UInt32)
  | u64 (value : UInt64)
  | i64 (value : Int64)
  | flag (value : Bool)
  | ipv4 (address : UInt32)
  | ipv6 (address : Ipv6)
  | mac (address : UInt64)
  | text (value : String)
  | bytes (value : Bytes)
  | missing
  deriving DecidableEq, Repr

namespace FieldValue

/-- The hardware address in the first six bytes. -/
def ofMacBytes (bs : Bytes) : FieldValue :=
  if 6 ≤ bs.length then mac (UInt64.ofNat (Bytes.toNatBE (bs.take 6))) else missing

/-- The IPv4 address in the first four bytes. -/
def ofIpv4Bytes (bs : Bytes) : FieldValue :=
  if 4 ≤ bs.length then ipv4 (UInt32.ofNat (Bytes.toNatBE (bs.take 4))) else missing

/-- The IPv6 address in the first sixteen bytes. -/
def ofIpv6Bytes (bs : Bytes) : FieldValue :=
  if 16 ≤ bs.length then ipv6 ⟨BitVec.ofNat 128 (Bytes.toNatBE (bs.take 16))⟩ else missing

def isMissing : FieldValue → Bool
  | missing => true
  | _ => false

/-- The value of a number or flag as an integer. -/
def number? : FieldValue → Option Int
  | u8 n => some n.toNat
  | u16 n => some n.toNat
  | u32 n => some n.toNat
  | u64 n => some n.toNat
  | i64 n => some n.toInt
  | flag b => some b.toNat
  | _ => none

/-- The value of a number or flag that is not negative. -/
def unsigned? (v : FieldValue) : Option Nat :=
  v.number?.bind fun n => if 0 ≤ n then some n.toNat else none

/-- The value of a number or flag that fits 64 bits with a sign. -/
def signed? (v : FieldValue) : Option Int64 :=
  v.number?.bind Number.int64?

/-- The number of an IPv4 address. -/
def ipv4? : FieldValue → Option UInt32
  | ipv4 a => some a
  | _ => none

/-- The number of a hardware address. -/
def mac? : FieldValue → Option UInt64
  | mac a => some a
  | _ => none

def text? : FieldValue → Option String
  | text s => some s
  | _ => none

def bytes? : FieldValue → Option Bytes
  | bytes bs => some bs
  | _ => none

def render : FieldValue → String
  | u8 n => toString n.toNat
  | u16 n => toString n.toNat
  | u32 n => toString n.toNat
  | u64 n => toString n.toNat
  | i64 n => toString n.toInt
  | flag b => if b then "true" else "false"
  | ipv4 a => Address.ipv4Text a
  | ipv6 a => Address.ipv6Text a
  | mac a => Address.macText a
  | text s => s
  | bytes bs => Bytes.toHex bs
  | missing => "NULL"

end FieldValue

end PacketQuery
