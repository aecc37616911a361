import PacketQuery.Frame.Header.Link
/-!
The network headers: ARP bodies, IPv4, the fixed header of IPv6, and ICMP.
-/

namespace PacketQuery

namespace IpProtocol

def icmp : Nat := 1

def tcp : Nat := 6

def udp : Nat := 17

end IpProtocol

namespace Header

/-- The operation, and the four addresses where the body maps IPv4 onto Ethernet. -/
def arp (data : Bytes) : Reading :=
  if data.length < 28 then .failed (.arp data.length) data
  else
    let mapsIpv4 := Bytes.word16 data 0 == 1 && (Bytes.word16 data 2).toNat == EtherType.ipv4
      && Bytes.byte data 4 == 6 && Bytes.byte data 5 == 4
    let addresses := if mapsIpv4 then
        [("sha", .ofMacBytes (Bytes.slice data 8 6)), ("spa", .ofIpv4Bytes (Bytes.slice data 14 4)),
          ("tha", .ofMacBytes (Bytes.slice data 18 6)),
          ("tpa", .ofIpv4Bytes (Bytes.slice data 24 4))]
      else []
    .complete (("op", .u16 (Bytes.word16 data 6)) :: addresses) (data.drop 28) []

/-- The fixed fields of an IPv4 header; options are passed over. The version is checked before
the length, and the announced length last. -/
def ipv4 (data : Bytes) : Reading :=
  let version := (Bytes.byte data 0).toNat / 16
  let words := (Bytes.byte data 0).toNat % 16
  let length := words * 4
  if data.length < 20 then .failed (.tooShort .ipv4 20 data.length) data
  else if version ≠ 4 then .failed (.wrongVersion 4 version) data
  else if words < 5 then .failed (.headerLength words) data
  else if data.length < length then .failed (.tooShort .ipv4 length data.length) data
  else
    let total := Bytes.word16 data 2
    let fragment := Bytes.word16 data 6
    let protocol := Bytes.byte data 9
    .complete
      [("version", .u8 4), ("ihl", .u8 (UInt8.ofNat words)), ("tos", .u8 (Bytes.byte data 1)),
        ("len", .u16 total), ("id", .u16 (Bytes.word16 data 4)),
        ("df", .flag (fragment &&& 0x4000 != 0)), ("mf", .flag (fragment &&& 0x2000 != 0)),
        ("frag", .u16 (fragment &&& 0x1FFF)), ("ttl", .u8 (Bytes.byte data 8)),
        ("proto", .u8 protocol), ("checksum", .u16 (Bytes.word16 data 10)),
        ("src", .ofIpv4Bytes (Bytes.slice data 12 4)),
        ("dst", .ofIpv4Bytes (Bytes.slice data 16 4))]
      (data.drop length)
      -- An announced length below the header's leaves no payload.
      [(.ipProtocol, protocol.toNat), (.ipVersion, 4), (.ipPayloadLength, total.toNat - length)]

/-- The fixed header of IPv6; extension headers are not followed. -/
def ipv6 (data : Bytes) : Reading :=
  let version := (Bytes.byte data 0).toNat / 16
  if data.length < 40 then .failed (.tooShort .ipv6 40 data.length) data
  else if version ≠ 6 then .failed (.wrongVersion 6 version) data
  else
    let first := Bytes.word32 data 0
    let payload := Bytes.word16 data 4
    let next := Bytes.byte data 6
    -- The version stands above the traffic class and is cut off with the width.
    .complete
      [("tclass", .u8 (UInt8.ofNat (first.toNat >>> 20))), ("flow", .u32 (first &&& 0xFFFFF)),
        ("plen", .u16 payload), ("nxt", .u8 next), ("hlim", .u8 (Bytes.byte data 7)),
        ("src", .ofIpv6Bytes (Bytes.slice data 8 16)),
        ("dst", .ofIpv6Bytes (Bytes.slice data 24 16))]
      (data.drop 40)
      [(.ipProtocol, next.toNat), (.ipVersion, 6), (.ipPayloadLength, payload.toNat)]

def echoReply : UInt8 := 0

def unreachable : UInt8 := 3

def echoRequest : UInt8 := 8

/-- Type, code and checksum; an echo also has an identifier and a sequence number. -/
def icmp (data : Bytes) : Reading :=
  if data.length < 8 then .failed (.icmp data.length) data
  else
    let kind := Bytes.byte data 0
    let echo := if kind == echoRequest || kind == echoReply then
        [("id", .u16 (Bytes.word16 data 4)), ("seq", .u16 (Bytes.word16 data 6))]
      else []
    .complete
      ([("type", .u8 kind), ("code", .u8 (Bytes.byte data 1)),
        ("checksum", .u16 (Bytes.word16 data 2))] ++ echo)
      (data.drop 8) []

end Header

end PacketQuery
