import PacketQuery.Bytes
import PacketQuery.Text.Ascii
/-!
Network addresses as numbers and their texts: dotted quads, colon-separated hexadecimal pairs,
and the compressed form of IPv6.
-/

namespace PacketQuery

structure Ipv6 where
  bits : BitVec 128
  deriving DecidableEq, Repr

namespace Address

/-- The octet of `n` that stands `place` octets above the lowest. -/
def octet (n place : Nat) : Nat :=
  n >>> (8 * place) % 256

/-- A 32-bit address as a dotted quad. -/
def ipv4Text (address : UInt32) : String :=
  Text.joined "." ([3, 2, 1, 0].map fun place => toString (octet address.toNat place))

/-- Octets as pairs of hexadecimal digits between colons. -/
def pairsText (octets : Bytes) : String :=
  Text.joined ":" (octets.map fun b => String.ofList (Bytes.hexPair b))

/-- The low 48 bits of a number as a hardware address. -/
def macText (address : UInt64) : String :=
  pairsText (Bytes.ofNatBE 6 address.toNat)

/-- Six octets as a hardware address; no other length is one. -/
def macOctetsText? (octets : Bytes) : Option String :=
  if octets.length = 6 then some (pairsText octets) else none

def groups (address : Ipv6) : List Nat :=
  [7, 6, 5, 4, 3, 2, 1, 0].map fun place => address.bits.toNat >>> (16 * place) % 65536

/-- The length of the run of zeros at the head. -/
def zeroRun (gs : List Nat) : Nat :=
  (gs.takeWhile (· == 0)).length

/-- The start and length of the first longest run of zeros. -/
def longestZeroRun (gs : List Nat) : Nat × Nat :=
  (List.range gs.length).foldl
    (fun best i => if best.2 < zeroRun (gs.drop i) then (i, zeroRun (gs.drop i)) else best) (0, 0)

/-- Groups in hexadecimal without leading zeros, between colons. -/
def groupsText (gs : List Nat) : String :=
  Text.joined ":" (gs.map fun g => String.ofList (Nat.toDigits 16 g))

/-- The compressed text of an address: the first longest run of two or more zero groups becomes
`::`, and the last four octets of a mapped IPv4 address are a dotted quad. -/
def ipv6Text (address : Ipv6) : String :=
  let gs := groups address
  if gs.take 5 == [0, 0, 0, 0, 0] && gs[5]? == some 0xFFFF then
    "::ffff:" ++ ipv4Text (UInt32.ofNat address.bits.toNat)
  else
    let (start, length) := longestZeroRun gs
    if length < 2 then groupsText gs
    else groupsText (gs.take start) ++ "::" ++ groupsText (gs.drop (start + length))

end Address

end PacketQuery
