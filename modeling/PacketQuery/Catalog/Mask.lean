import PacketQuery.Text.Ascii
/-!
Sets of protocols as bits of one word. Every protocol that a catalogue tells apart has its bit;
the positions are part of what is stored, so the table only ever grows at its end.
-/

namespace PacketQuery.Catalog

/-- The protocols in the order of their bits, from the lowest. -/
def protocols : List String :=
  ["ETHERNET", "ARP", "IPV4", "IPV6", "ICMP", "UDP", "TCP", "DNS", "DHCP", "HTTPS", "SSH", "RDP",
    "TELNET", "SMTP", "IMAP", "IMAPS", "POP3", "POP3S", "SNMP", "FTP", "HTTP", "NTP", "RTP",
    "RTCP", "SIP", "SIP_TLS", "BGP", "SMB", "ICMP_UNREACHABLE", "VLAN"]

/-- Other names, with the protocols that they stand for. -/
def otherNames : List (String × String) :=
  [("IP", "IPV4"), ("ETH", "ETHERNET"), ("IP6", "IPV6")]

/-- The name of a protocol in the table for one of its other names; any other word itself. -/
def canonical (word : String) : String :=
  ((otherNames.find? fun entry => Text.same entry.1 word).map (·.2)).getD word

/-- The position of the bit for a word, in any case. -/
def position? (word : String) : Option Nat :=
  protocols.findIdx? (Text.same · (canonical word))

/-- A set of protocols. Bits above the table stand for nothing. -/
structure Mask where
  bits : UInt64
  deriving DecidableEq, Repr

namespace Mask

def empty : Mask := ⟨0⟩

/-- The word with the one bit at `position`. -/
def bitAt (position : Nat) : UInt64 :=
  UInt64.ofNat (1 <<< position)

/-- The bit for a word, in any case. -/
def bit? (word : String) : Option UInt64 :=
  (position? word).map bitAt

/-- The set with the protocol that a word names; the same set for any other word. -/
def insert (mask : Mask) (word : String) : Mask :=
  match bit? word with
  | some bit => ⟨mask.bits ||| bit⟩
  | none => mask

def ofNames (words : List String) : Mask :=
  words.foldl insert empty

/-- The protocol named is in the set. -/
def contains (mask : Mask) (word : String) : Bool :=
  (bit? word).any fun bit => mask.bits &&& bit != 0

/-- Every protocol of `required` is in the set. -/
def includes (mask required : Mask) : Bool :=
  mask.bits &&& required.bits == required.bits

def isEmpty (mask : Mask) : Bool :=
  mask.bits == 0

/-- The protocols of the set, in the order of the table. -/
def names (mask : Mask) : List String :=
  (protocols.zipIdx.filter fun (_, i) => mask.bits &&& bitAt i != 0).map (·.1)

def text (mask : Mask) : String :=
  Text.joined "|" mask.names

end Mask

end PacketQuery.Catalog
