import PacketQuery.Catalog.Mask
import PacketQuery.Frame.Packet
import PacketQuery.Segment.Basic
/-!
What a catalogue knows of a packet: when it was captured, where its record starts, which
protocols it carries, and its IPv4 addresses and ports. An extent is the range of times that the
packets of one segment cover.
-/

namespace PacketQuery

/-- The packet of a record, decoded by the protocols of `set`. -/
def Packet.ofCaptured (set : List Protocol) (linkType : UInt16) (segment : UInt32)
    (p : Captured) : Packet :=
  .decode set linkType p.frame
    ⟨segment, UInt64.ofNat p.offset, p.time, p.capturedLength, p.originalLength⟩

namespace Catalog

/-- What is kept of one packet. -/
structure Entry where
  /-- Microseconds since the epoch. -/
  time : UInt64
  /-- Where the packet's record starts in its segment. -/
  offset : UInt64
  mask : Mask
  /-- The IPv4 destination, zero without IPv4. -/
  destination : UInt32
  /-- The IPv4 source, zero without IPv4. -/
  source : UInt32
  /-- Where the last header that could be read ends, at most 65535. -/
  headerLength : UInt16
  /-- The destination port, zero without a transport. -/
  destinationPort : UInt16
  /-- The source port, zero without a transport. -/
  sourcePort : UInt16
  deriving DecidableEq, Repr

/-- What the headers of a packet tell, gone through from the outermost. -/
structure Survey where
  mask : Mask := .empty
  destination : UInt32 := 0
  source : UInt32 := 0
  headerLength : UInt16 := 0
  destinationPort : UInt16 := 0
  sourcePort : UInt16 := 0
  /-- The number of the transport's IP protocol. -/
  transport : Option Nat := none
  deriving DecidableEq, Repr

namespace Survey

/-- The address in a field of an IPv4 header, else zero. -/
def addressIn (header : Reading) (field : String) : UInt32 :=
  ((header.field? field).bind FieldValue.ipv4?).getD 0

/-- The port in a field of a transport header, else zero. -/
def portIn (header : Reading) (field : String) : UInt16 :=
  UInt16.ofNat (((header.field? field).bind FieldValue.unsigned?).getD 0)

/-- An ICMP header reports a destination that cannot be reached. -/
def reportsUnreachable (header : Reading) : Bool :=
  (header.field? "type").bind FieldValue.unsigned? == some Header.unreachable.toNat

/-- With the ports of a transport header. -/
def addTransport (s : Survey) (word : String) (protocol : Nat) (header : Reading) : Survey :=
  { s with
    mask := s.mask.insert word
    sourcePort := portIn header "sport"
    destinationPort := portIn header "dport"
    transport := some protocol }

/-- With what one header tells. A header that could not be read still counts for the mask, so the
mask misses nothing that a decoding of the whole packet finds. -/
def addHeader (s : Survey) (layer : Layer) : Survey :=
  match layer.protocol with
  | .ethernet => { s with mask := s.mask.insert "ETHERNET" }
  | .vlan => { s with mask := s.mask.insert "VLAN" }
  | .arp => { s with mask := s.mask.insert "ARP" }
  | .ipv4 =>
    { s with
      mask := s.mask.insert "IPV4"
      source := addressIn layer.reading "src"
      destination := addressIn layer.reading "dst" }
  | .ipv6 => { s with mask := s.mask.insert "IPV6" }
  | .icmp =>
    let mask := s.mask.insert "ICMP"
    { s with
      mask := if reportsUnreachable layer.reading then mask.insert "ICMP_UNREACHABLE" else mask }
  | .tcp => s.addTransport "TCP" IpProtocol.tcp layer.reading
  | .udp => s.addTransport "UDP" IpProtocol.udp layer.reading
  | .dns => s

/-- With one layer: what its header tells, and where it ends if it could be read. -/
def add (s : Survey) (layer : Layer) : Survey :=
  if layer.reading.isComplete then
    { s.addHeader layer with headerLength := UInt16.ofNat (min layer.stop 65535) }
  else s.addHeader layer

def ofLayers (layers : List Layer) : Survey :=
  layers.foldl add {}

/-- The names of the services on the ports. -/
def services (s : Survey) : List String :=
  match s.transport with
  | some protocol => Service.namesOf protocol s.sourcePort.toNat s.destinationPort.toNat
  | none => []

end Survey

namespace Entry

/-- The entry of a packet. Services are told by their ports alone. -/
def ofPacket (p : Packet) : Entry :=
  let s := Survey.ofLayers p.layers
  { time := p.capture.time
    offset := p.capture.offset
    mask := s.services.foldl Mask.insert s.mask
    destination := s.destination
    source := s.source
    headerLength := s.headerLength
    destinationPort := s.destinationPort
    sourcePort := s.sourcePort }

/-- The entries of a segment's packets, unless one of its records cannot be read. -/
def ofSegment (set : List Protocol) (id : UInt32) (s : Segment) :
    Except SegmentFault (List Entry) :=
  s.records.mapM fun p? => p?.map fun p => ofPacket (.ofCaptured set s.linkType id p)

end Entry

/-- The range of times of one segment, in microseconds since the epoch. -/
structure Extent where
  segment : UInt32
  first : UInt64
  last : UInt64
  deriving DecidableEq, Repr

namespace Extent

/-- The range of the entries' times; there is none without entries. -/
def ofEntries? (segment : UInt32) (entries : List Entry) : Option Extent := do
  let times := entries.map (·.time)
  some ⟨segment, ← times.min?, ← times.max?⟩

/-- The range meets the one from `first` to `last`. -/
def overlaps (extent : Extent) (first last : UInt64) : Bool :=
  extent.first ≤ last && first ≤ extent.last

end Extent

end Catalog

end PacketQuery
