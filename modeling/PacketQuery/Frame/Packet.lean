import PacketQuery.Frame.Protocol
import PacketQuery.Frame.Service
/-!
A decoded packet: its frame, when and where it was captured, its layers and its services.
Fields are named by layer and field with a point between; the layer may be given by an alias
and in any case. The pseudo-layer `frame` holds what is known of the capture.
-/

namespace PacketQuery

/-- What is known of a captured frame besides its bytes. -/
structure Capture where
  segment : UInt32
  /-- Where the packet's record starts in its segment. -/
  offset : UInt64
  /-- Microseconds since the epoch. -/
  time : UInt64
  /-- How many bytes were captured. -/
  captured : UInt32
  /-- How many bytes the frame had on the wire. -/
  original : UInt32
  deriving DecidableEq, Repr

/-- A frame with its layers. -/
structure Packet where
  frame : Bytes
  capture : Capture
  layers : List Layer
  deriving DecidableEq, Repr

namespace Packet

/-- A frame decoded by the protocols of `set`. -/
def decode (set : List Protocol) (linkType : UInt16) (frame : Bytes) (capture : Capture) :
    Packet :=
  ⟨frame, capture, Layer.ofFrame set linkType frame⟩

/-- The first layer of the given name, in any case. -/
def layer? (p : Packet) (name : String) : Option Layer :=
  p.layers.find? (·.isNamed name)

/-- The end of the last layer below the applications: where the transport payload starts. -/
def payloadStart (p : Packet) : Nat :=
  match (p.layers.filter (!·.protocol.isApplication)).getLast? with
  | some layer => layer.stop
  | none => 0

/-- The first layer that is TCP or UDP. -/
def transport? (p : Packet) : Option Layer :=
  p.layers.find? fun layer => layer.protocol == .tcp || layer.protocol == .udp

/-- The number of the IP protocol of a transport. -/
def ipProtocolOf (p : Protocol) : Nat :=
  if p == .tcp then IpProtocol.tcp else IpProtocol.udp

/-- The names of the services on the packet's ports. -/
def services (p : Packet) : List String :=
  let found := do
    let layer ← p.transport?
    let source ← (← layer.reading.field? "sport").unsigned?
    let destination ← (← layer.reading.field? "dport").unsigned?
    some (Service.namesOf (ipProtocolOf layer.protocol) source destination)
  found.getD []

/-- The packet reports a destination that cannot be reached. -/
def isUnreachable (p : Packet) : Bool :=
  match p.layers.find? (·.protocol == .icmp) with
  | some layer => layer.reading.field? "type" == some (.u8 Header.unreachable)
  | none => false

/-- The name of the tag for destinations that cannot be reached. -/
def unreachableTag : String := "icmp_unreachable"

/-- Names that the packet answers to besides those of its layers. -/
def tags (p : Packet) : List String :=
  p.services ++ if p.isUnreachable then [unreachableTag] else []

/-- The names of layers and tags, each once, in order of first appearance. -/
def protocolNames (p : Packet) : List String :=
  (p.layers.map (·.protocol.name) ++ p.tags).foldl
    (fun names name => if names.contains name then names else names ++ [name]) []

/-- The packet has the layer or tag named, in any case. -/
def hasLayer (p : Packet) (name : String) : Bool :=
  Text.same "frame" name || (p.layer? name).isSome || p.tags.any (Text.same · name)

def frameFieldNames : List String :=
  ["ts", "ts_us", "len", "caplen", "segment", "offset", "protocols"]

/-- A field of the pseudo-layer `frame`. -/
def frameField? (p : Packet) (name : String) : Option FieldValue :=
  match name with
  | "ts" => some (.u64 (p.capture.time / 1000000))
  | "ts_us" => some (.u64 p.capture.time)
  | "len" => some (.u32 p.capture.original)
  | "caplen" => some (.u32 p.capture.captured)
  | "segment" => some (.u32 p.capture.segment)
  | "offset" => some (.u64 p.capture.offset)
  | "protocols" => some (.text (Text.joined ":" p.protocolNames))
  | _ => none

/-- The field of a dotted name. -/
def field? (p : Packet) (name : String) : Option FieldValue :=
  match Text.cut '.' name with
  | none => none
  | some (layer, field) =>
    if Text.same "frame" layer then p.frameField? field
    else (p.layer? layer).bind (·.reading.field? field)

/-- Where the bytes counted from `base` start: a layer, the whole frame or the payload. -/
def baseStart? (p : Packet) (base : String) : Option Nat :=
  if Text.same "frame" base then some 0
  else if Text.same "payload" base then some p.payloadStart
  else (p.layer? base).map (·.start)

/-- The `length` bytes that start `offset` bytes into `base`, if the frame holds all of them. -/
def bytes? (p : Packet) (base : String) (offset length : Nat) : Option Bytes :=
  (p.baseStart? base).bind fun start => Bytes.slice? p.frame (start + offset) length

/-- Every field with its dotted name, those of the frame first. -/
def fields (p : Packet) : List (String × FieldValue) :=
  frameFieldNames.filterMap (fun name => (p.frameField? name).map ("frame." ++ name, ·))
    ++ p.layers.flatMap fun layer =>
      layer.reading.fields.map fun (name, value) => (layer.protocol.name ++ "." ++ name, value)

end Packet

end PacketQuery
