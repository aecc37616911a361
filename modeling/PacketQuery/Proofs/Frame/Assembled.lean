import Mathlib.Data.Nat.Bitwise
import PacketQuery.Frame.Assembly
import PacketQuery.Proofs.Bytes
import PacketQuery.Proofs.Frame.Stage
/-!
What the headers of an assembled frame read as: each gives back the values that it was assembled
from, and leaves what it carries. The `fields` of a header are all those of its reading, with the
values that were given and those that assembly computes.
-/

namespace PacketQuery

/-- A mask of one bit asks for that bit. -/
theorem and_mask_eq_testBit (n mask : UInt16) {i : Nat} (single : mask.toNat = 2 ^ i) :
    (n &&& mask != 0) = n.toNat.testBit i := by
  have word : (n &&& mask).toNat = (n.toNat.testBit i).toNat * 2 ^ i := by
    rw [UInt16.toNat_and, single, Nat.and_two_pow]
  have power : 0 < 2 ^ i := Nat.two_pow_pos i
  cases bit : n.toNat.testBit i with
  | false =>
    rw [bit, Bool.toNat_false, Nat.zero_mul] at word
    have zero : n &&& mask = 0 := UInt16.toNat_inj.mp word
    simp [zero]
  | true =>
    rw [bit, Bool.toNat_true, Nat.one_mul] at word
    have some_ : n &&& mask ≠ 0 := by
      intro zero
      rw [zero] at word
      exact absurd word (Nat.ne_of_lt power)
    simpa using some_

namespace Assembly

/-! ### Link headers -/

def Ethernet.fields (f : Ethernet) : List (String × FieldValue) :=
  [("src", .mac (UInt64.ofNat (Bytes.toNatBE f.source))),
    ("dst", .mac (UInt64.ofNat (Bytes.toNatBE f.destination))),
    ("type", .u16 (if f.vlan.isSome then 0x8100 else f.etherType))]

/-- The length of the header, with the tag if there is one. -/
def Ethernet.headerLength (f : Ethernet) : Nat :=
  14 + if f.vlan.isSome then 4 else 0

def tagFields (id etherType : UInt16) : List (String × FieldValue) :=
  [("id", .u16 id), ("priority", .u8 0), ("dei", .flag false), ("type", .u16 etherType)]

/-- What follows the type of a tagged frame: the rest of the tag, and the payload. -/
def tagged (id etherType : UInt16) (payload : Bytes) : Bytes :=
  Bytes.ofNatBE 2 id.toNat ++ (Bytes.ofNatBE 2 etherType.toNat ++ payload)

theorem length_tagged (id etherType : UInt16) (payload : Bytes) :
    (tagged id etherType payload).length = 4 + payload.length := by
  simp [tagged]
  omega

/-- The number of a tag takes the low bits of its word. -/
theorem and_mask_of_lt {id : UInt16} (small : id.toNat < 4096) : id &&& 0x0FFF = id := by
  refine UInt16.toNat_inj.mp ?_
  rw [UInt16.toNat_and]
  exact (Nat.and_two_pow_sub_one_eq_mod id.toNat 12).trans (Nat.mod_eq_of_lt small)

section Link

variable {f : Ethernet} (source : f.source.length = 6) (destination : f.destination.length = 6)
include source destination

/-- A header with the addresses of a frame, and whatever follows them. -/
theorem ethernet_parts (etherType : UInt16) (rest : Bytes) :
    Header.ethernet
        (f.destination ++ (f.source ++ (Bytes.ofNatBE 2 etherType.toNat ++ rest)))
      = .complete [("src", .mac (UInt64.ofNat (Bytes.toNatBE f.source))),
          ("dst", .mac (UInt64.ofNat (Bytes.toNatBE f.destination))), ("type", .u16 etherType)]
        rest [(.etherType, etherType.toNat)] := by
  generalize shape : f.destination ++ (f.source ++ (Bytes.ofNatBE 2 etherType.toNat ++ rest)) = data
  have addresses : (f.destination ++ f.source).length = 12 := by
    rw [List.length_append, destination, source]
  have type : Bytes.word16 data 12 = etherType := by
    rw [← shape, ← List.append_assoc]
    exact Bytes.word16_eq (Bytes.slice_part addresses (Bytes.length_ofNatBE 2 _) rest)
  have from_ : Bytes.slice data 6 6 = f.source := by
    rw [← shape]
    exact Bytes.slice_part destination source _
  have to_ : Bytes.slice data 0 6 = f.destination := by
    rw [← shape]
    rw [Bytes.slice, List.drop_zero]
    exact List.take_left' destination
  have behind : data.drop 14 = rest := by
    rw [← shape, ← List.append_assoc, ← List.append_assoc]
    refine List.drop_left' ?_
    rw [List.length_append, addresses, Bytes.length_ofNatBE]
  have long : ¬ data.length < 14 := by
    rw [← shape]
    simp [source, destination]
    omega
  have macs : ∀ bs : Bytes, bs.length = 6 →
      FieldValue.ofMacBytes bs = .mac (UInt64.ofNat (Bytes.toNatBE bs)) := by
    intro bs six
    rw [FieldValue.ofMacBytes, if_pos (Nat.le_of_eq six.symm),
      List.take_of_length_le (Nat.le_of_eq six)]
  simp only [Header.ethernet, if_neg long, type, from_, to_, behind, macs _ source,
    macs _ destination]

theorem ethernet_untagged (plain : f.vlan = none) :
    Header.ethernet f.toBytes
      = .complete f.fields f.payload [(.etherType, f.etherType.toNat)] := by
  have shape : f.toBytes
      = f.destination ++ (f.source ++ (Bytes.ofNatBE 2 f.etherType.toNat ++ f.payload)) := by
    simp [Ethernet.toBytes, plain]
  have fields : f.fields = [("src", .mac (UInt64.ofNat (Bytes.toNatBE f.source))),
      ("dst", .mac (UInt64.ofNat (Bytes.toNatBE f.destination))), ("type", .u16 f.etherType)] := by
    simp [Ethernet.fields, plain]
  rw [shape, fields]
  exact ethernet_parts source destination f.etherType f.payload

theorem ethernet_tagged {id : UInt16} (tag : f.vlan = some id) (small : id.toNat < 4096) :
    Header.ethernet f.toBytes = .complete f.fields (tagged id f.etherType f.payload)
      [(.etherType, EtherType.vlan)] := by
  have shape : f.toBytes = f.destination ++ (f.source ++ (Bytes.ofNatBE 2 (0x8100 : UInt16).toNat
      ++ tagged id f.etherType f.payload)) := by
    simp [Ethernet.toBytes, tagged, tag, and_mask_of_lt small]
  have fields : f.fields = [("src", .mac (UInt64.ofNat (Bytes.toNatBE f.source))),
      ("dst", .mac (UInt64.ofNat (Bytes.toNatBE f.destination))), ("type", .u16 0x8100)] := by
    simp [Ethernet.fields, tag]
  rw [shape, fields]
  exact ethernet_parts source destination 0x8100 _

theorem Ethernet.length_toBytes : f.toBytes.length = f.headerLength + f.payload.length := by
  cases tag : f.vlan <;>
    simp [Ethernet.toBytes, Ethernet.headerLength, tag, source, destination] <;> omega

theorem Ethernet.drop_toBytes : f.toBytes.drop f.headerLength = f.payload := by
  refine List.drop_left' ?_
  cases tag : f.vlan <;>
    simp [Ethernet.headerLength, tag, source, destination]

end Link

theorem vlan_tagged {id : UInt16} (small : id.toNat < 4096) (etherType : UInt16)
    (payload : Bytes) :
    Header.vlan (tagged id etherType payload)
      = .complete (tagFields id etherType) payload [(.etherType, etherType.toNat)] := by
  have tag : Bytes.word16 (tagged id etherType payload) 0 = id := Bytes.word16_eq rfl
  have type : Bytes.word16 (tagged id etherType payload) 2 = etherType := Bytes.word16_eq rfl
  have behind : (tagged id etherType payload).drop 4 = payload := rfl
  have long : ¬ (tagged id etherType payload).length < 4 := by
    rw [length_tagged]
    omega
  have priority : id.toNat >>> 13 = 0 := by
    rw [Nat.shiftRight_eq_div_pow]
    omega
  have dei : (id &&& 0x1000 != 0) = false := by
    rw [and_mask_eq_testBit id 0x1000 (i := 12) rfl]
    exact Nat.testBit_lt_two_pow small
  simp only [Header.vlan, if_neg long, tag, type, behind, and_mask_of_lt small, priority, dei]
  rfl

/-! ### IPv4 -/

def Ipv4.sum (d : Ipv4) : UInt16 :=
  .ofNat (checksum (d.head ++ [0, 0] ++ d.source ++ d.destination))

def Ipv4.fields (d : Ipv4) : List (String × FieldValue) :=
  [("version", .u8 4), ("ihl", .u8 5), ("tos", .u8 d.tos),
    ("len", .u16 (.ofNat (20 + d.payload.length))), ("id", .u16 d.identification),
    ("df", .flag (d.flagsFragment.toNat.testBit 14)),
    ("mf", .flag (d.flagsFragment.toNat.testBit 13)), ("frag", .u16 (d.flagsFragment % 8192)),
    ("ttl", .u8 d.ttl), ("proto", .u8 d.protocol), ("checksum", .u16 d.sum),
    ("src", .ipv4 (.ofNat (Bytes.toNatBE d.source))),
    ("dst", .ipv4 (.ofNat (Bytes.toNatBE d.destination)))]

theorem Ipv4.length_toBytes {d : Ipv4} (source : d.source.length = 4)
    (destination : d.destination.length = 4) : d.toBytes.length = 20 + d.payload.length := by
  simp [Ipv4.toBytes, Ipv4.head, source, destination]
  omega

theorem Ipv4.drop_toBytes {d : Ipv4} (source : d.source.length = 4)
    (destination : d.destination.length = 4) : d.toBytes.drop 20 = d.payload := by
  refine List.drop_left' ?_
  simp [Ipv4.head, source, destination]

theorem ipv4_toBytes {d : Ipv4} (source : d.source.length = 4)
    (destination : d.destination.length = 4) (fits : 20 + d.payload.length < 65536) :
    Header.ipv4 d.toBytes = .complete d.fields d.payload
      (Stage.network d.protocol.toNat 4 d.payload.length).hints := by
  let sum := checksum (d.head ++ [0, 0] ++ d.source ++ d.destination)
  -- What stands before the addresses has a known length, so its words are found by computing.
  let fixed := d.head ++ Bytes.ofNatBE 2 sum
  have shape : d.toBytes = fixed ++ (d.source ++ (d.destination ++ d.payload)) := by
    simp [Ipv4.toBytes, fixed, sum]
  have total : Bytes.word16 d.toBytes 2 = .ofNat (20 + d.payload.length) :=
    Bytes.word16_eq_ofNat rfl
  have identification : Bytes.word16 d.toBytes 4 = d.identification := Bytes.word16_eq rfl
  have fragment : Bytes.word16 d.toBytes 6 = d.flagsFragment := Bytes.word16_eq rfl
  have checked : Bytes.word16 d.toBytes 10 = d.sum := Bytes.word16_eq_ofNat rfl
  have from_ : Bytes.slice d.toBytes 12 4 = d.source := by
    rw [shape]
    exact Bytes.slice_part rfl source _
  have to_ : Bytes.slice d.toBytes 16 4 = d.destination := by
    rw [shape, ← List.append_assoc]
    refine Bytes.slice_part ?_ destination _
    rw [List.length_append, source]
    rfl
  have behind : d.toBytes.drop 20 = d.payload := Ipv4.drop_toBytes source destination
  have long : ¬ d.toBytes.length < 20 := by
    rw [Ipv4.length_toBytes source destination]
    omega
  have addresses : ∀ bs : Bytes, bs.length = 4 →
      FieldValue.ofIpv4Bytes bs = .ipv4 (.ofNat (Bytes.toNatBE bs)) := by
    intro bs four
    rw [FieldValue.ofIpv4Bytes, if_pos (Nat.le_of_eq four.symm),
      List.take_of_length_le (Nat.le_of_eq four)]
  have df := and_mask_eq_testBit d.flagsFragment 0x4000 (i := 14) rfl
  have mf := and_mask_eq_testBit d.flagsFragment 0x2000 (i := 13) rfl
  have place : d.flagsFragment &&& 0x1FFF = d.flagsFragment % 8192 := by
    refine UInt16.toNat_inj.mp ?_
    rw [UInt16.toNat_and, UInt16.toNat_mod]
    exact Nat.and_two_pow_sub_one_eq_mod d.flagsFragment.toNat 13
  have first : Bytes.byte d.toBytes 0 = 0x45 := rfl
  have announced : (UInt16.ofNat (20 + d.payload.length)).toNat - 20 = d.payload.length := by
    rw [UInt16.toNat_ofNat_of_lt' fits, Nat.add_sub_cancel_left]
  have version : ¬ (0x45 : UInt8).toNat / 16 ≠ 4 := by decide
  have words : ¬ (0x45 : UInt8).toNat % 16 < 5 := by decide
  have length : (0x45 : UInt8).toNat % 16 * 4 = 20 := rfl
  simp only [Header.ipv4, first, if_neg long, if_neg version, if_neg words, length, total,
    identification, fragment, checked, from_, to_, behind, addresses _ source,
    addresses _ destination, df, mf, place, announced]
  rfl

/-! ### Transport headers -/

def Tcp.fields (s : Tcp) : List (String × FieldValue) :=
  let flag (bit : Nat) : FieldValue := .flag (s.flags.toNat.testBit bit)
  [("sport", .u16 s.source), ("dport", .u16 s.destination), ("seq", .u32 s.sequence),
    ("ack", .u32 s.acknowledgment), ("off", .u8 5), ("flags", .u16 s.flags.toUInt16),
    ("syn", flag 1), ("fin", flag 0), ("rst", flag 2), ("psh", flag 3), ("urg", flag 5),
    ("win", .u16 s.window), ("checksum", .u16 0), ("urp", .u16 0),
    ("len", .u32 (.ofNat s.payload.length))]

def Udp.fields (d : Udp) : List (String × FieldValue) :=
  [("sport", .u16 d.source), ("dport", .u16 d.destination),
    ("len", .u16 (.ofNat (8 + d.payload.length))), ("checksum", .u16 0)]

def Icmp.echoFields (m : Icmp) : List (String × FieldValue) :=
  [("type", .u8 m.kind), ("code", .u8 m.code), ("checksum", .u16 0), ("id", .u16 m.identifier),
    ("seq", .u16 m.sequence)]

@[simp] theorem Tcp.length_toBytes (s : Tcp) : s.toBytes.length = 20 + s.payload.length := by
  simp [Tcp.toBytes]
  omega

@[simp] theorem Udp.length_toBytes (d : Udp) : d.toBytes.length = 8 + d.payload.length := by
  simp [Udp.toBytes]
  omega

@[simp] theorem Icmp.length_toBytes (m : Icmp) : m.toBytes.length = 8 + m.payload.length := by
  simp [Icmp.toBytes]
  omega

theorem tcp_toBytes (s : Tcp) {context : Context}
    (announced : context.hint? .ipPayloadLength = some s.toBytes.length) :
    Header.tcp s.toBytes context = .complete s.fields s.payload
      (Stage.transport s.source.toNat s.destination.toNat IpProtocol.tcp).hints := by
  have source : Bytes.word16 s.toBytes 0 = s.source := Bytes.word16_eq rfl
  have destination : Bytes.word16 s.toBytes 2 = s.destination := Bytes.word16_eq rfl
  have sequence : Bytes.word32 s.toBytes 4 = s.sequence := Bytes.word32_eq rfl
  have acknowledgment : Bytes.word32 s.toBytes 8 = s.acknowledgment := Bytes.word32_eq rfl
  have window : Bytes.word16 s.toBytes 14 = s.window := Bytes.word16_eq rfl
  have checked : Bytes.word16 s.toBytes 16 = 0 := rfl
  have urgent : Bytes.word16 s.toBytes 18 = 0 := rfl
  have first : Bytes.byte s.toBytes 12 = 0x50 := rfl
  have words : ¬ (0x50 : UInt8).toNat / 16 < 5 := by decide
  have length : (0x50 : UInt8).toNat / 16 * 4 = 20 := rfl
  have behind : s.toBytes.drop 20 = s.payload := rfl
  have long : ¬ s.toBytes.length < 20 := by
    rw [Tcp.length_toBytes]
    omega
  -- of the nine flags the highest shares a byte with the data offset and is never set
  have flags : Bytes.word16 s.toBytes 12 &&& 0x1FF = s.flags.toUInt16 := by
    have part : Bytes.word16 s.toBytes 12 = UInt16.ofNat (Bytes.toNatBE [0x50, s.flags]) := rfl
    rw [part]
    exact forall_byte (p := fun b => UInt16.ofNat (Bytes.toNatBE [0x50, b]) &&& 0x1FF = b.toUInt16)
      (by decide +kernel) s.flags
  have size : Header.segmentLength context 20 s.payload = s.payload.length := by
    simp [Header.segmentLength, announced]
  have syn := and_mask_eq_testBit s.flags.toUInt16 0x002 (i := 1) rfl
  have fin := and_mask_eq_testBit s.flags.toUInt16 0x001 (i := 0) rfl
  have rst := and_mask_eq_testBit s.flags.toUInt16 0x004 (i := 2) rfl
  have psh := and_mask_eq_testBit s.flags.toUInt16 0x008 (i := 3) rfl
  have urg := and_mask_eq_testBit s.flags.toUInt16 0x020 (i := 5) rfl
  simp only [Header.tcp, first, if_neg long, if_neg words, length, source, destination, sequence,
    acknowledgment, flags, window, checked, urgent, behind, size, syn, fin, rst, psh, urg,
    UInt8.toNat_toUInt16]
  rfl

theorem udp_toBytes (d : Udp) : Header.udp d.toBytes = .complete d.fields d.payload
    (Stage.transport d.source.toNat d.destination.toNat IpProtocol.udp).hints := by
  have source : Bytes.word16 d.toBytes 0 = d.source := Bytes.word16_eq rfl
  have destination : Bytes.word16 d.toBytes 2 = d.destination := Bytes.word16_eq rfl
  have length : Bytes.word16 d.toBytes 4 = .ofNat (8 + d.payload.length) :=
    Bytes.word16_eq_ofNat rfl
  have checked : Bytes.word16 d.toBytes 6 = 0 := rfl
  have behind : d.toBytes.drop 8 = d.payload := rfl
  have long : ¬ d.toBytes.length < 8 := by
    rw [Udp.length_toBytes]
    omega
  simp only [Header.udp, if_neg long, source, destination, length, checked, behind]
  rfl

theorem icmp_toBytes {m : Icmp} (echo : m.kind = Header.echoRequest ∨ m.kind = Header.echoReply) :
    Header.icmp m.toBytes = .complete m.echoFields m.payload Stage.closed.hints := by
  have kind : Bytes.byte m.toBytes 0 = m.kind := rfl
  have code : Bytes.byte m.toBytes 1 = m.code := rfl
  have checked : Bytes.word16 m.toBytes 2 = 0 := rfl
  have identifier : Bytes.word16 m.toBytes 4 = m.identifier := Bytes.word16_eq rfl
  have sequence : Bytes.word16 m.toBytes 6 = m.sequence := Bytes.word16_eq rfl
  have behind : m.toBytes.drop 8 = m.payload := rfl
  have long : ¬ m.toBytes.length < 8 := by
    rw [Icmp.length_toBytes]
    omega
  have answers : (m.kind == Header.echoRequest || m.kind == Header.echoReply) = true := by
    simpa using echo
  simp only [Header.icmp, if_neg long, kind, code, checked, identifier, sequence, behind, answers,
    if_true]
  rfl

end Assembly

end PacketQuery
