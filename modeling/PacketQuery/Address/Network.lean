import PacketQuery.Address.Basic
/-!
IPv4 networks: an address and how many of its leading bits are fixed. A network holds the
addresses of one contiguous range.
-/

namespace PacketQuery

/-- An IPv4 network; `address` has its free bits cleared. -/
structure Network where
  address : UInt32
  length : Nat
  deriving DecidableEq, Repr

namespace Network

/-- The 32-bit mask whose leading `length` bits are set. -/
def mask (length : Nat) : UInt32 :=
  UInt32.ofNat (UInt32.size - 1 <<< (32 - length))

/-- The network of `address` with `length` fixed bits, at most all 32. -/
def of (address : UInt32) (length : Nat) : Network :=
  ⟨address &&& mask (min length 32), min length 32⟩

/-- The network of one address. -/
def host (address : UInt32) : Network :=
  of address 32

def lowest (net : Network) : UInt32 :=
  net.address

def highest (net : Network) : UInt32 :=
  net.address ||| ~~~ mask net.length

def contains (net : Network) (address : UInt32) : Bool :=
  net.lowest ≤ address && address ≤ net.highest

/-- The address, a slash and the number of fixed bits. -/
def text (net : Network) : String :=
  Address.ipv4Text net.address ++ "/" ++ toString net.length

end Network

end PacketQuery
