import PacketQuery.Frame.Header.Dns
/-!
The protocols whose headers are decoded, what each claims and reads, and the decoding of a frame
layer by layer. A set of protocols takes part in a decoding; at every step at most one of them
claims what is known, so their order does not matter.
-/

namespace PacketQuery

/-- A protocol whose header is decoded. -/
inductive Protocol
  | ethernet
  | vlan
  | arp
  | ipv4
  | ipv6
  | tcp
  | udp
  | icmp
  | dns
  deriving DecidableEq, Repr

namespace Protocol

/-- The layer name. -/
def name : Protocol → String
  | ethernet => "ethernet"
  | vlan => "vlan"
  | arp => "arp"
  | ipv4 => "ipv4"
  | ipv6 => "ipv6"
  | tcp => "tcp"
  | udp => "udp"
  | icmp => "icmp"
  | dns => "dns"

/-- The name for people. -/
def title : Protocol → String
  | ethernet => "Ethernet II"
  | vlan => "802.1Q VLAN"
  | arp => "ARP"
  | ipv4 => "IPv4"
  | ipv6 => "IPv6"
  | tcp => "TCP"
  | udp => "UDP"
  | icmp => "ICMP"
  | dns => "DNS"

/-- Shorter names accepted for the layer. -/
def aliases : Protocol → List String
  | ethernet => ["eth"]
  | ipv4 => ["ip"]
  | ipv6 => ["ip6"]
  | _ => []

/-- The names of the fields that the header can have, in its order. -/
def fieldNames : Protocol → List String
  | ethernet => ["src", "dst", "type"]
  | vlan => ["id", "priority", "dei", "type"]
  | arp => ["op", "sha", "spa", "tha", "tpa"]
  | ipv4 => ["version", "ihl", "tos", "len", "id", "df", "mf", "frag", "ttl", "proto", "checksum",
      "src", "dst"]
  | ipv6 => ["tclass", "flow", "plen", "nxt", "hlim", "src", "dst"]
  | tcp => ["sport", "dport", "seq", "ack", "off", "flags", "syn", "fin", "rst", "psh", "urg",
      "win", "checksum", "urp", "len"]
  | udp => ["sport", "dport", "len", "checksum"]
  | icmp => ["type", "code", "checksum", "id", "seq"]
  | dns => ["id", "qr", "opcode", "rcode", "qdcount", "ancount", "qname", "qtype"]

/-- The layer stands above the transport payload. -/
def isApplication : Protocol → Bool
  | dns => true
  | _ => false

/-- The name or an alias, in any case. -/
def isNamed (p : Protocol) (word : String) : Bool :=
  Text.same p.name word || p.aliases.any (Text.same · word)

def ethernetLink : UInt16 := 1

/-- What is known says that this protocol comes next. -/
def claims (p : Protocol) (context : Context) : Bool :=
  match p with
  | ethernet => context.isFirst && context.linkType == ethernetLink
  | vlan => context.hint? .etherType == some EtherType.vlan
      || context.hint? .etherType == some EtherType.outerVlan
  | arp => context.hint? .etherType == some EtherType.arp
  | ipv4 => context.hint? .etherType == some EtherType.ipv4
  | ipv6 => context.hint? .etherType == some EtherType.ipv6
  | tcp => context.hint? .ipProtocol == some IpProtocol.tcp
  | udp => context.hint? .ipProtocol == some IpProtocol.udp
  | icmp => context.hint? .ipProtocol == some IpProtocol.icmp && context.hint? .ipVersion == some 4
  | dns => context.hint? .sourcePort == some Header.dnsPort
      || context.hint? .destinationPort == some Header.dnsPort

/-- How strongly a protocol claims: all alike. -/
def priority (p : Protocol) (context : Context) : Option Nat :=
  if p.claims context then some 100 else none

/-- The reading of the header at the head of `data`. -/
def read (p : Protocol) (data : Bytes) (context : Context) : Reading :=
  match p with
  | ethernet => Header.ethernet data
  | vlan => Header.vlan data
  | arp => Header.arp data
  | ipv4 => Header.ipv4 data
  | ipv6 => Header.ipv6 data
  | tcp => Header.tcp data context
  | udp => Header.udp data
  | icmp => Header.icmp data
  | dns => Header.dns data context

/-- Link, network and transport: enough to catalogue a packet. -/
def lower : List Protocol :=
  [ethernet, vlan, arp, ipv4, ipv6, tcp, udp, icmp]

def all : List Protocol :=
  lower ++ [dns]

/-- The protocol of `set` that claims what is known; of several the last. -/
def next? (set : List Protocol) (context : Context) : Option Protocol :=
  set.reverse.find? (·.claims context)

end Protocol

/-- One decoded layer and the part of the frame that it takes. -/
structure Layer where
  protocol : Protocol
  start : Nat
  stop : Nat
  reading : Reading
  deriving DecidableEq, Repr

namespace Layer

/-- The layers of `data`, which starts at position `start` of the frame. The decoding ends with
the data, where no protocol claims what is left, or after a header that is malformed; every
header that is not takes at least one byte, so there are at most `room` layers where `room` is
the length of the data. -/
def ofBytes (set : List Protocol) :
    (room : Nat) → Context → (start : Nat) → Bytes → List Layer
  | 0, _, _, _ => []
  | room + 1, context, start, data =>
    if data.isEmpty then []
    else
      match Protocol.next? set context with
      | none => []
      | some p =>
        let reading := p.read data context
        let stop := start + (data.length - reading.rest.length)
        let layer : Layer := ⟨p, start, stop, reading⟩
        if reading.isComplete then
          layer :: ofBytes set room ⟨context.linkType, false, reading.hints⟩ stop reading.rest
        else [layer]

def ofFrame (set : List Protocol) (linkType : UInt16) (frame : Bytes) : List Layer :=
  ofBytes set frame.length (.start linkType) 0 frame

/-- The layer is the one named, in any case. -/
def isNamed (layer : Layer) (word : String) : Bool :=
  layer.protocol.isNamed word

end Layer

end PacketQuery
