import PacketQuery.Frame.Layer
/-!
The link headers: Ethernet II and the IEEE 802.1Q tag that may follow it.
-/

namespace PacketQuery

namespace EtherType

def ipv4 : Nat := 0x0800

def arp : Nat := 0x0806

def vlan : Nat := 0x8100

def outerVlan : Nat := 0x88A8

def ipv6 : Nat := 0x86DD

end EtherType

namespace Header

/-- Destination and source addresses, then the type of what follows. -/
def ethernet (data : Bytes) : Reading :=
  if data.length < 14 then .failed (.tooShort .ethernet 14 data.length) data
  else
    let etherType := Bytes.word16 data 12
    .complete
      [("src", .ofMacBytes (Bytes.slice data 6 6)), ("dst", .ofMacBytes (Bytes.slice data 0 6)),
        ("type", .u16 etherType)]
      (data.drop 14) [(.etherType, etherType.toNat)]

/-- Priority, drop eligibility and VLAN number in one word, then the type of what follows. -/
def vlan (data : Bytes) : Reading :=
  if data.length < 4 then .failed .vlanTag data
  else
    let tag := Bytes.word16 data 0
    let etherType := Bytes.word16 data 2
    .complete
      [("id", .u16 (tag &&& 0x0FFF)), ("priority", .u8 (UInt8.ofNat (tag.toNat >>> 13))),
        ("dei", .flag (tag &&& 0x1000 != 0)), ("type", .u16 etherType)]
      (data.drop 4) [(.etherType, etherType.toNat)]

end Header

end PacketQuery
