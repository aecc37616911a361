import PacketQuery.Frame.Header.Network
/-!
The transport headers TCP and UDP.
-/

namespace PacketQuery.Header

/-- The length of the segment data in `payload`: what the IP header announces less the TCP
header, so that padding after the datagram does not count. -/
def segmentLength (context : Context) (headerLength : Nat) (payload : Bytes) : Nat :=
  match context.hint? .ipPayloadLength with
  | some announced => min (announced - headerLength) payload.length
  | none => payload.length

/-- Ports, numbers and flags of a TCP header; options are passed over. The nine flag bits are
the low bits of the word that starts with the data offset. -/
def tcp (data : Bytes) (context : Context) : Reading :=
  let words := (Bytes.byte data 12).toNat / 16
  let length := words * 4
  if data.length < 20 then .failed (.tooShort .tcp 20 data.length) data
  else if words < 5 then .failed (.dataOffset words) data
  else if data.length < length then .failed (.tooShort .tcp length data.length) data
  else
    let source := Bytes.word16 data 0
    let destination := Bytes.word16 data 2
    let flags := Bytes.word16 data 12 &&& 0x1FF
    let payload := data.drop length
    .complete
      [("sport", .u16 source), ("dport", .u16 destination), ("seq", .u32 (Bytes.word32 data 4)),
        ("ack", .u32 (Bytes.word32 data 8)), ("off", .u8 (UInt8.ofNat words)),
        ("flags", .u16 flags), ("syn", .flag (flags &&& 0x002 != 0)),
        ("fin", .flag (flags &&& 0x001 != 0)), ("rst", .flag (flags &&& 0x004 != 0)),
        ("psh", .flag (flags &&& 0x008 != 0)), ("urg", .flag (flags &&& 0x020 != 0)),
        ("win", .u16 (Bytes.word16 data 14)), ("checksum", .u16 (Bytes.word16 data 16)),
        ("urp", .u16 (Bytes.word16 data 18)),
        ("len", .u32 (UInt32.ofNat (segmentLength context length payload)))]
      payload
      [(.sourcePort, source.toNat), (.destinationPort, destination.toNat),
        (.transport, IpProtocol.tcp)]

/-- Ports, length and checksum of a UDP header; the length is not checked. -/
def udp (data : Bytes) : Reading :=
  if data.length < 8 then .failed (.tooShort .udp 8 data.length) data
  else
    let source := Bytes.word16 data 0
    let destination := Bytes.word16 data 2
    .complete
      [("sport", .u16 source), ("dport", .u16 destination), ("len", .u16 (Bytes.word16 data 4)),
        ("checksum", .u16 (Bytes.word16 data 6))]
      (data.drop 8)
      [(.sourcePort, source.toNat), (.destinationPort, destination.toNat),
        (.transport, IpProtocol.udp)]

end PacketQuery.Header
