import PacketQuery.Segment.Basic
/-!
The bytes of a segment made of given packets.
-/

namespace PacketQuery.Segment

/-- A segment to be written: packets as seconds, microseconds and frame. -/
structure Draft where
  order : ByteOrder := .big
  linkType : UInt32 := 1
  packets : List (UInt32 × UInt32 × Bytes) := []
  deriving DecidableEq, Repr

namespace Draft

/-- The file header: magic number, version 2.4, no time shift, and the link type. -/
def header (d : Draft) : Bytes :=
  d.order.write 4 0xA1B2C3D4 ++ d.order.write 2 2 ++ d.order.write 2 4 ++ d.order.write 4 0
    ++ d.order.write 4 0 ++ d.order.write 4 65535 ++ d.order.write 4 d.linkType.toNat

/-- One record: times, the frame's length twice, and the frame. -/
def record (d : Draft) : UInt32 × UInt32 × Bytes → Bytes
  | (seconds, microseconds, frame) =>
    d.order.write 4 seconds.toNat ++ d.order.write 4 microseconds.toNat
      ++ d.order.write 4 frame.length ++ d.order.write 4 frame.length ++ frame

def toBytes (d : Draft) : Bytes :=
  d.header ++ d.packets.flatMap d.record

end Draft

end PacketQuery.Segment
