import PacketQuery.Frame.Header.Dns
/-!
Frames put together from their parts: a structure for each header, whose defaults make a small
valid one, and the bytes that it stands for. Lengths are written modulo the width of their
field, and only IPv4 headers carry a computed checksum.
-/

namespace PacketQuery

/-- A hardware address in six bytes. -/
abbrev MacBytes := List UInt8

namespace Assembly

/-- The source address of a frame unless another is given. -/
def defaultMac : MacBytes := [0x00, 0x11, 0x22, 0x33, 0x44, 0x55]

/-- An Ethernet frame, tagged if `vlan` gives a number. -/
structure Ethernet where
  source : MacBytes := defaultMac
  destination : MacBytes := [0xFF, 0xFF, 0xFF, 0xFF, 0xFF, 0xFF]
  vlan : Option UInt16 := none
  etherType : UInt16 := 0x0800
  payload : Bytes := []
  deriving DecidableEq, Repr

def Ethernet.toBytes (f : Ethernet) : Bytes :=
  let tag := match f.vlan with
    | some id => Bytes.ofNatBE 2 0x8100 ++ Bytes.ofNatBE 2 (id &&& 0x0FFF).toNat
    | none => []
  f.destination ++ f.source ++ tag ++ Bytes.ofNatBE 2 f.etherType.toNat ++ f.payload

/-- An ARP body that maps IPv4 onto Ethernet. -/
structure Arp where
  operation : UInt16 := 1
  senderMac : MacBytes := defaultMac
  senderIp : Bytes
  targetMac : MacBytes := [0, 0, 0, 0, 0, 0]
  targetIp : Bytes
  deriving DecidableEq, Repr

def Arp.reply (a : Arp) : Arp :=
  { a with operation := 2 }

def Arp.toBytes (a : Arp) : Bytes :=
  Bytes.ofNatBE 2 1 ++ Bytes.ofNatBE 2 0x0800 ++ [6, 4] ++ Bytes.ofNatBE 2 a.operation.toNat
    ++ a.senderMac ++ a.senderIp ++ a.targetMac ++ a.targetIp

/-- An IPv4 datagram without options. -/
structure Ipv4 where
  tos : UInt8 := 0
  identification : UInt16 := 1
  flagsFragment : UInt16 := 0x4000
  ttl : UInt8 := 64
  protocol : UInt8 := 6
  source : Bytes := [192, 168, 1, 1]
  destination : Bytes := [192, 168, 1, 2]
  payload : Bytes := []
  deriving DecidableEq, Repr

/-- The sum of the 16-bit words of a byte string. -/
def wordSum : Bytes → Nat
  | a :: b :: rest => a.toNat * 256 + b.toNat + wordSum rest
  | [a] => a.toNat * 256
  | [] => 0

/-- A sum with the carries out of its low 16 bits added back, twice, which is enough for the
words of a header. -/
def foldCarry (sum : Nat) : Nat :=
  let once := sum % 65536 + sum / 65536
  once % 65536 + once / 65536

/-- The Internet checksum of a header. -/
def checksum (header : Bytes) : Nat :=
  65535 - foldCarry (wordSum header)

/-- The fields before the checksum. -/
def Ipv4.head (d : Ipv4) : Bytes :=
  [0x45, d.tos] ++ Bytes.ofNatBE 2 (20 + d.payload.length)
    ++ Bytes.ofNatBE 2 d.identification.toNat ++ Bytes.ofNatBE 2 d.flagsFragment.toNat
    ++ [d.ttl, d.protocol]

def Ipv4.toBytes (d : Ipv4) : Bytes :=
  let sum := checksum (d.head ++ [0, 0] ++ d.source ++ d.destination)
  d.head ++ Bytes.ofNatBE 2 sum ++ d.source ++ d.destination ++ d.payload

/-- An IPv6 datagram without extension headers. -/
structure Ipv6 where
  nextHeader : UInt8 := 6
  hopLimit : UInt8 := 64
  source : Bytes := [0xFE, 0x80, 0, 0, 0, 0, 0, 0, 0, 0, 0, 0, 0, 0, 0, 1]
  destination : Bytes := [0xFE, 0x80, 0, 0, 0, 0, 0, 0, 0, 0, 0, 0, 0, 0, 0, 2]
  payload : Bytes := []
  deriving DecidableEq, Repr

def Ipv6.toBytes (d : Ipv6) : Bytes :=
  [0x60, 0, 0, 0] ++ Bytes.ofNatBE 2 d.payload.length ++ [d.nextHeader, d.hopLimit]
    ++ d.source ++ d.destination ++ d.payload

/-- A TCP segment without options. -/
structure Tcp where
  source : UInt16 := 12345
  destination : UInt16 := 80
  sequence : UInt32 := 0
  acknowledgment : UInt32 := 0
  flags : UInt8 := 0x02
  window : UInt16 := 65535
  payload : Bytes := []
  deriving DecidableEq, Repr

def Tcp.syn (s : Tcp) : Tcp :=
  { s with flags := 0x02 }

def Tcp.ack (s : Tcp) : Tcp :=
  { s with flags := 0x10 }

def Tcp.pushAck (s : Tcp) : Tcp :=
  { s with flags := 0x18 }

def Tcp.toBytes (s : Tcp) : Bytes :=
  Bytes.ofNatBE 2 s.source.toNat ++ Bytes.ofNatBE 2 s.destination.toNat
    ++ Bytes.ofNatBE 4 s.sequence.toNat ++ Bytes.ofNatBE 4 s.acknowledgment.toNat
    ++ [0x50, s.flags] ++ Bytes.ofNatBE 2 s.window.toNat ++ [0, 0, 0, 0] ++ s.payload

structure Udp where
  source : UInt16 := 12345
  destination : UInt16 := 53
  payload : Bytes := []
  deriving DecidableEq, Repr

def Udp.toBytes (d : Udp) : Bytes :=
  Bytes.ofNatBE 2 d.source.toNat ++ Bytes.ofNatBE 2 d.destination.toNat
    ++ Bytes.ofNatBE 2 (8 + d.payload.length) ++ [0, 0] ++ d.payload

/-- An ICMP message; identifier and sequence number fill the four bytes after the checksum. -/
structure Icmp where
  kind : UInt8 := 0
  code : UInt8 := 0
  identifier : UInt16 := 0
  sequence : UInt16 := 0
  payload : Bytes := []
  deriving DecidableEq, Repr

def Icmp.echoRequest (m : Icmp) : Icmp :=
  { m with kind := 8, code := 0 }

def Icmp.echoReply (m : Icmp) : Icmp :=
  { m with kind := 0, code := 0 }

/-- The message as a report of a destination that cannot be reached. -/
def Icmp.unreachable (m : Icmp) (code : UInt8) : Icmp :=
  { m with kind := 3, code }

def Icmp.toBytes (m : Icmp) : Bytes :=
  [m.kind, m.code, 0, 0] ++ Bytes.ofNatBE 2 m.identifier.toNat
    ++ Bytes.ofNatBE 2 m.sequence.toNat ++ m.payload

/-- The labels of a name on the wire; empty ones are left out. -/
def nameBytes (name : String) : Bytes :=
  let labels := (Text.pieces '.' name.toList).filter (!·.isEmpty)
  labels.flatMap (fun label =>
    let bytes := Text.toUtf8 (String.ofList label)
    UInt8.ofNat bytes.length :: bytes) ++ [0]

/-- A DNS query with one question in class IN, recursion desired. -/
def dnsQuery (id : UInt16) (name : String) (kind : UInt16) : Bytes :=
  Bytes.ofNatBE 2 id.toNat ++ Bytes.ofNatBE 2 0x0100 ++ Bytes.ofNatBE 2 1 ++ [0, 0, 0, 0, 0, 0]
    ++ nameBytes name ++ Bytes.ofNatBE 2 kind.toNat ++ Bytes.ofNatBE 2 1

/-- A frame that carries an IPv4 datagram. -/
def ipv4Frame (protocol : UInt8) (source destination payload : Bytes) : Bytes :=
  let datagram : Ipv4 := { protocol, source, destination, payload }
  let frame : Ethernet := { payload := datagram.toBytes }
  frame.toBytes

/-- A frame with a TCP segment that pushes data. -/
def tcpFrame (source destination : Bytes) (sourcePort destinationPort : UInt16)
    (payload : Bytes) : Bytes :=
  let segment : Tcp := { source := sourcePort, destination := destinationPort, payload }
  ipv4Frame 6 source destination segment.pushAck.toBytes

/-- A frame with a UDP datagram. -/
def udpFrame (source destination : Bytes) (sourcePort destinationPort : UInt16)
    (payload : Bytes) : Bytes :=
  let datagram : Udp := { source := sourcePort, destination := destinationPort, payload }
  ipv4Frame 17 source destination datagram.toBytes

/-- A frame with a DNS query for an address. -/
def dnsFrame (source destination : Bytes) (sourcePort : UInt16) (name : String) : Bytes :=
  udpFrame source destination sourcePort 53 (dnsQuery 0x1234 name 1)

/-- A frame with an ICMP echo request. -/
def echoFrame (source destination : Bytes) (identifier sequence : UInt16) : Bytes :=
  let message : Icmp := { identifier, sequence, payload := List.replicate 32 0 }
  ipv4Frame 1 source destination message.echoRequest.toBytes

/-- A frame with an ICMP report of a destination that cannot be reached. -/
def unreachableFrame (source destination : Bytes) (code : UInt8) : Bytes :=
  let message : Icmp := { payload := List.replicate 28 0 }
  ipv4Frame 1 source destination (message.unreachable code).toBytes

end Assembly

end PacketQuery
