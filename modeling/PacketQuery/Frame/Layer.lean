import PacketQuery.Frame.FieldValue
/-!
What one header tells: its fields, the bytes after it, and the facts that decide which header
comes next. A header that is malformed or cut off carries the reason instead.
-/

namespace PacketQuery

/-- A fact that a header hands to the one inside it. -/
inductive Hint
  | etherType
  | ipProtocol
  | ipVersion
  | ipPayloadLength
  | sourcePort
  | destinationPort
  | transport
  deriving DecidableEq, Repr

def Hint.name : Hint → String
  | etherType => "ethertype"
  | ipProtocol => "ip_protocol"
  | ipVersion => "ip_version"
  | ipPayloadLength => "ip_payload_len"
  | sourcePort => "src_port"
  | destinationPort => "dst_port"
  | transport => "transport"

/-- What is known where a header starts. -/
structure Context where
  /-- The link type of the segment. -/
  linkType : UInt16
  /-- The header is the first of the frame. -/
  isFirst : Bool
  hints : List (Hint × Nat)
  deriving DecidableEq, Repr

/-- What is known at the start of a frame. -/
def Context.start (linkType : UInt16) : Context :=
  ⟨linkType, true, []⟩

/-- The first value given for a hint. -/
def Context.hint? (context : Context) (hint : Hint) : Option Nat :=
  (context.hints.find? (·.1 == hint)).map (·.2)

/-- The headers of which the length and a version are checked before any field is read. -/
inductive CheckedHeader
  | ethernet
  | ipv4
  | ipv6
  | tcp
  | udp
  deriving DecidableEq, Repr

namespace CheckedHeader

def label : CheckedHeader → String
  | ethernet => "Ethernet"
  | ipv4 => "IPv4"
  | ipv6 => "IPv6"
  | tcp => "TCP"
  | udp => "UDP"

def title : CheckedHeader → String
  | ethernet => "Ethernet 2"
  | h => h.label

/-- The fewest bytes that the header takes. -/
def least : CheckedHeader → Nat
  | ethernet => 14
  | ipv4 => 20
  | ipv6 => 40
  | tcp => 20
  | udp => 8

end CheckedHeader

/-- Why a header could not be read to its end. -/
inductive HeaderFault
  /-- The header takes `need` bytes and there are `held`. -/
  | tooShort (header : CheckedHeader) (need held : Nat)
  /-- The version field of an IP header does not hold `expected`. -/
  | wrongVersion (expected found : Nat)
  /-- The length of an IPv4 header, in words, leaves out fixed fields. -/
  | headerLength (words : Nat)
  /-- The length of a TCP header, in words, leaves out fixed fields. -/
  | dataOffset (words : Nat)
  | vlanTag
  | arp (held : Nat)
  | icmp (held : Nat)
  | dnsLength
  | dnsHeader
  | nameEnds
  | labelLength (length : Nat)
  | labelEnds
  | tooManyLabels
  deriving DecidableEq, Repr

def HeaderFault.message : HeaderFault → String
  | tooShort header need held =>
    header.label ++ " parse error: " ++ header.title
      ++ " Header Error: Not enough data to decode '" ++ header.title ++ " header'. "
      ++ toString need ++ " byte(s) would be required, but only " ++ toString held
      ++ " byte(s) are available based on the slice length."
  | wrongVersion expected found =>
    let name := "IPv" ++ toString expected
    name ++ " parse error: " ++ name ++ " Header Error: Encountered '" ++ toString found
      ++ "' as IP version number in the " ++ name ++ " header (must be '" ++ toString expected
      ++ "' in an " ++ name ++ " header)."
  | headerLength words =>
    "IPv4 parse error: IPv4 Header Error: The 'internet header length' value '" ++ toString words
      ++ "' present in the IPv4 header is smaller than the minimum size of an IPv4 header. "
      ++ "The minimum allowed value is '5'."
  | dataOffset words =>
    "TCP parse error: TCP Header Error: 'data offset' too small (" ++ toString words
      ++ "). The 'data offset' must be at least 5 so the data is not overlapping with "
      ++ "the TCP header itself."
  | vlanTag => "VLAN tag too short"
  | arp held => "ARP packet too short: " ++ toString held ++ " bytes"
  | icmp held => "ICMP header too short: " ++ toString held ++ " bytes"
  | dnsLength => "DNS length prefix missing"
  | dnsHeader => "DNS header too short"
  | nameEnds => "Unexpected end of data while parsing domain name"
  | labelLength length => "Invalid label length: " ++ toString length
  | labelEnds => "Label extends beyond data"
  | tooManyLabels => "Too many labels in domain name"

/-- The reading of one header. -/
structure Reading where
  /-- Fields by name, in the order of the header. -/
  fields : List (String × FieldValue)
  /-- The bytes after the header; all of them where it could not be read. -/
  rest : Bytes
  /-- Facts for the header inside. -/
  hints : List (Hint × Nat)
  fault : Option HeaderFault
  deriving DecidableEq, Repr

namespace Reading

/-- A header read to its end. -/
def complete (fields : List (String × FieldValue)) (rest : Bytes)
    (hints : List (Hint × Nat)) : Reading :=
  ⟨fields, rest, hints, none⟩

/-- A header of which nothing could be read. -/
def failed (fault : HeaderFault) (data : Bytes) : Reading :=
  ⟨[], data, [], some fault⟩

/-- A header that breaks off after `fields`. -/
def broken (fields : List (String × FieldValue)) (fault : HeaderFault) : Reading :=
  ⟨fields, [], [], some fault⟩

/-- The header was read to its end. -/
def isComplete (r : Reading) : Bool :=
  r.fault.isNone

/-- The first field with the given name. -/
def field? (r : Reading) (name : String) : Option FieldValue :=
  (r.fields.find? (·.1 == name)).map (·.2)

end Reading

end PacketQuery
