import PacketQuery.Proofs.Catalog.Agreement
import PacketQuery.Proofs.Frame.Assembled
import PacketQuery.Proofs.Text.Numerals
/-!
Decoding takes an assembled frame apart. The layers are those that it was put together from, their
fields have the values that were given or computed, and the payload is the one that was given.
-/

namespace PacketQuery

/-- A header that was read to its end. -/
def Layer.whole (p : Protocol) (start size : Nat) (fields : List (String × FieldValue))
    (rest : Bytes) (next : Stage) : Layer :=
  ⟨p, start, start + size, .complete fields rest next.hints⟩

/-- A header that is read to its end is a layer, and the decoding goes on behind it. -/
theorem Layer.ofBytes_of_read {linkType : UInt16} {set : List Protocol} {stage next : Stage}
    {room size : Nat} {data rest : Bytes} {p : Protocol} {fields : List (String × FieldValue)}
    (start : Nat) (enough : data.length ≤ room)
    (long : data.length = size + rest.length) (takes : 0 < size)
    (claimed : Protocol.next? set (stage.context linkType) = some p) (later : next ≠ .first)
    (reads : p.read data (stage.context linkType) = .complete fields rest next.hints) :
    ∃ room', rest.length ≤ room' ∧
      ofBytes set room (stage.context linkType) start data
        = whole p start size fields rest next
          :: ofBytes set room' (next.context linkType) (start + size) rest := by
  cases room with
  | zero => omega
  | succ room =>
    have some_ : data.isEmpty = false := by
      rw [List.isEmpty_eq_false_iff, ← List.length_pos_iff]
      omega
    have stop : start + (data.length - rest.length) = start + size := by omega
    have context : (⟨linkType, false, next.hints⟩ : Context) = next.context linkType := by
      simp [Stage.context, later]
    refine ⟨room, by omega, ?_⟩
    rw [ofBytes, some_, claimed]
    simp only [reads, Reading.isComplete_complete, Bool.false_eq_true, if_true, if_false]
    rw [← context]
    simp only [Reading.complete, stop, whole]
    rfl

/-- The one element with a key is found by it. -/
theorem find?_key {α κ : Type} [DecidableEq κ] {key : α → κ} {xs : List α}
    (distinct : (xs.map key).Nodup) (k : κ) (x : α) :
    xs.find? (key · == k) = some x ↔ x ∈ xs ∧ key x = k := by
  induction xs with
  | nil => simp
  | cons y ys ih =>
    rw [List.map_cons, List.nodup_cons] at distinct
    rw [List.find?_cons]
    by_cases same : key y = k
    · have apart : ∀ z ∈ ys, key z ≠ k := fun z member other =>
        distinct.1 (List.mem_map.mpr ⟨z, member, other.trans same.symm⟩)
      simp only [same, BEq.rfl, Option.some.injEq, List.mem_cons]
      constructor
      · rintro rfl
        exact ⟨.inl rfl, same⟩
      · rintro ⟨rfl | later, named⟩
        · rfl
        · exact absurd named (apart x later)
    · have unlike : (key y == k) = false := by simpa using same
      rw [unlike, ih distinct.2, List.mem_cons]
      constructor
      · rintro ⟨later, named⟩
        exact ⟨.inr later, named⟩
      · rintro ⟨rfl | later, named⟩
        · exact absurd named same
        · exact ⟨later, named⟩

theorem Reading.field?_eq_some_iff {r : Reading} (distinct : (r.fields.map (·.1)).Nodup)
    (name : String) (value : FieldValue) :
    r.field? name = some value ↔ (name, value) ∈ r.fields := by
  rw [field?, Option.map_eq_some_iff]
  constructor
  · rintro ⟨entry, found, rfl⟩
    obtain ⟨member, rfl⟩ := (find?_key distinct name entry).mp found
    exact member
  · intro member
    exact ⟨(name, value), (find?_key distinct name _).mpr ⟨member, rfl⟩, rfl⟩

/-- A word that names a protocol names no other, has no point and is not the pseudo-layer. -/
theorem Protocol.word_of_isNamed {q : Protocol} {word : String} (named : q.isNamed word = true) :
    (∀ r : Protocol, r.isNamed word = (r == q)) ∧ '.' ∉ word.toList ∧
      Text.same "frame" word = false := by
  have others : ∀ r : Protocol, ∀ m ∈ q.name :: q.aliases, r.isNamed m = (r == q) := by
    intro r
    cases q <;> cases r <;> decide
  have plain : ∀ m ∈ q.name :: q.aliases, '.' ∉ m.toList.map Char.toLower := by
    cases q <;> decide
  have proper : ∀ m ∈ q.name :: q.aliases, Text.same "frame" m = false := by
    cases q <;> decide
  obtain ⟨m, member, alike⟩ : ∃ m ∈ q.name :: q.aliases, Text.same m word = true := by
    simpa [Protocol.isNamed] using named
  refine ⟨fun r => ?_, fun point => plain m member ?_, ?_⟩
  · rw [← Catalog.isNamed_congr alike, others r m member]
  · rw [Text.same_iff.mp alike]
    exact List.mem_map.mpr ⟨'.', point, by decide⟩
  · rw [← Text.same_right_congr alike, proper m member]

theorem Packet.field?_dotted (p : Packet) {q : Protocol} {word : String}
    (named : q.isNamed word = true) (name : String) :
    p.field? (word ++ "." ++ name)
      = (p.layers.find? (·.protocol == q)).bind (·.reading.field? name) := by
  obtain ⟨others, plain, proper⟩ := Protocol.word_of_isNamed named
  have parts : Text.cut '.' (word ++ "." ++ name) = some (word, name) :=
    Text.cut_eq_some plain (by simp)
  exact Catalog.field?_eq_bind p parts proper others

namespace Assembly

/-- What an IPv4 datagram carries. -/
inductive Body
  | tcp (s : Tcp)
  | udp (d : Udp)
  | echo (m : Icmp) (isEcho : m.kind = Header.echoRequest ∨ m.kind = Header.echoReply)

namespace Body

def protocol : Body → Protocol
  | tcp _ => .tcp
  | udp _ => .udp
  | echo .. => .icmp

/-- The number of the body's protocol in an IPv4 header. -/
def number : Body → UInt8
  | tcp _ => 6
  | udp _ => 17
  | echo .. => 1

def headerLength : Body → Nat
  | tcp _ => 20
  | udp _ | echo .. => 8

def toBytes : Body → Bytes
  | tcp s => s.toBytes
  | udp d => d.toBytes
  | echo m _ => m.toBytes

def payload : Body → Bytes
  | tcp s => s.payload
  | udp d => d.payload
  | echo m _ => m.payload

def fields : Body → List (String × FieldValue)
  | tcp s => s.fields
  | udp d => d.fields
  | echo m _ => m.echoFields

def ports : Body → List UInt16
  | tcp s => [s.source, s.destination]
  | udp d => [d.source, d.destination]
  | echo .. => []

def stage : Body → Stage
  | tcp s => .transport s.source.toNat s.destination.toNat IpProtocol.tcp
  | udp d => .transport d.source.toNat d.destination.toNat IpProtocol.udp
  | echo .. => .closed

theorem length_toBytes (b : Body) : b.toBytes.length = b.headerLength + b.payload.length := by
  cases b with
  | tcp s => exact s.length_toBytes
  | udp d => exact d.length_toBytes
  | echo m => exact m.length_toBytes

theorem headerLength_pos (b : Body) : 0 < b.headerLength := by
  cases b <;> exact Nat.succ_pos _

theorem read_toBytes (b : Body) {context : Context}
    (announced : context.hint? .ipPayloadLength = some b.toBytes.length) :
    b.protocol.read b.toBytes context = .complete b.fields b.payload b.stage.hints := by
  cases b with
  | tcp s => exact tcp_toBytes s announced
  | udp d => exact udp_toBytes d
  | echo m isEcho => exact icmp_toBytes isEcho

theorem next?_network (b : Body) (linkType : UInt16) (length : Nat) :
    Protocol.next? Protocol.all ((Stage.network b.number.toNat 4 length).context linkType)
      = some b.protocol := by
  cases b <;> rfl

theorem above (b : Body) : 3 < b.stage.height := by
  cases b with
  | tcp | udp => exact Nat.lt_succ_self 3
  | echo => exact Nat.lt_add_of_pos_right Nat.two_pos

theorem dns_claims_iff (b : Body) (linkType : UInt16) :
    Protocol.dns.claims (b.stage.context linkType) = true ↔ (53 : UInt16) ∈ b.ports := by
  have port : ∀ n : UInt16, n.toNat = Header.dnsPort ↔ 53 = n := by
    intro n
    rw [eq_comm]
    exact UInt16.toNat_inj (a := 53)
  cases b with
  | tcp s | udp d =>
    simp [stage, ports, Protocol.claims, Stage.context, Stage.hints, Context.hint?, port]
  | echo => simp [stage, ports, Protocol.claims, Stage.context, Stage.hints, Context.hint?]

end Body

/-- A frame with an IPv4 datagram with a body: the numbers that say what is inside are right, and
addresses and lengths fit their fields. -/
structure IsStack (frame : Ethernet) (datagram : Ipv4) (body : Body) : Prop where
  etherType : frame.etherType = 0x0800
  carries : frame.payload = datagram.toBytes
  protocol : datagram.protocol = body.number
  holds : datagram.payload = body.toBytes
  sourceMac : frame.source.length = 6
  destinationMac : frame.destination.length = 6
  vlan : ∀ id, frame.vlan = some id → id.toNat < 4096
  source : datagram.source.length = 4
  destination : datagram.destination.length = 4
  fits : 20 + body.toBytes.length < 65536

/-- The protocols of a stack below the applications, with their fields. -/
def partsOf (frame : Ethernet) (datagram : Ipv4) (body : Body) :
    List (Protocol × List (String × FieldValue)) :=
  (.ethernet, frame.fields)
    :: (frame.vlan.toList.map fun id => (.vlan, tagFields id frame.etherType))
    ++ [(.ipv4, datagram.fields), (body.protocol, body.fields)]

def upperLayers (datagram : Ipv4) (body : Body) (start : Nat) : List Layer :=
  [.whole .ipv4 start 20 datagram.fields body.toBytes
      (.network body.number.toNat 4 body.toBytes.length),
    .whole body.protocol (start + 20) body.headerLength body.fields body.payload body.stage]

def linkLayers (frame : Ethernet) : List Layer :=
  match frame.vlan with
  | none => [.whole .ethernet 0 14 frame.fields frame.payload (.link EtherType.ipv4)]
  | some id =>
    [.whole .ethernet 0 14 frame.fields (tagged id frame.etherType frame.payload)
        (.link EtherType.vlan),
      .whole .vlan 14 4 (tagFields id frame.etherType) frame.payload (.link EtherType.ipv4)]

def lowerLayers (frame : Ethernet) (datagram : Ipv4) (body : Body) : List Layer :=
  linkLayers frame ++ upperLayers datagram body frame.headerLength

/-- The DNS layer over a body, if there is one. -/
def dnsLayers (linkType : UInt16) (body : Body) (start : Nat) : List Layer :=
  if body.payload ≠ [] ∧ (53 : UInt16) ∈ body.ports then
    [.readAt .dns (body.stage.context linkType) start body.payload]
  else []

section Stack

variable {frame : Ethernet} {datagram : Ipv4} {body : Body} (stack : IsStack frame datagram body)
  {linkType : UInt16}
include stack

theorem ofBytes_datagram {room start : Nat} (enough : frame.payload.length ≤ room) :
    Layer.ofBytes Protocol.all room ((Stage.link EtherType.ipv4).context linkType) start frame.payload
      = upperLayers datagram body start
        ++ dnsLayers linkType body (start + 20 + body.headerLength) := by
  have long := Ipv4.length_toBytes stack.source stack.destination
  have fits : 20 + datagram.payload.length < 65536 := stack.holds ▸ stack.fits
  have header := ipv4_toBytes stack.source stack.destination fits
  rw [stack.holds, stack.protocol] at header
  rw [stack.holds] at long
  rw [stack.carries] at enough ⊢
  let inner : Stage := .network body.number.toNat 4 body.toBytes.length
  have datagrams : Protocol.next? Protocol.all ((Stage.link EtherType.ipv4).context linkType)
      = some .ipv4 := rfl
  have later : inner ≠ .first := nofun
  obtain ⟨room, enough, outer⟩ :=
    Layer.ofBytes_of_read start enough long (by decide) datagrams later header
  have inside : body.protocol.read body.toBytes (inner.context linkType) = _ :=
    body.read_toBytes rfl
  have above : body.stage ≠ .first := fun first => absurd body.above (by rw [first]; decide)
  obtain ⟨room, enough, bodies⟩ := Layer.ofBytes_of_read (start + 20) enough body.length_toBytes
    body.headerLength_pos (body.next?_network linkType _) above inside
  rw [outer, bodies, Layer.ofBytes_above body.above enough]
  simp only [body.dns_claims_iff]
  rfl

theorem ofFrame_stack :
    Layer.ofFrame Protocol.all Protocol.ethernetLink frame.toBytes
      = lowerLayers frame datagram body ++ dnsLayers Protocol.ethernetLink body
        (frame.headerLength + 20 + body.headerLength) := by
  have long := Ethernet.length_toBytes stack.sourceMac stack.destinationMac
  have first : Protocol.next? Protocol.all (Stage.first.context Protocol.ethernetLink)
      = some .ethernet := rfl
  have toDatagram : Stage.link EtherType.ipv4 ≠ .first := by simp
  change Layer.ofBytes Protocol.all _ (Stage.first.context Protocol.ethernetLink) 0 _ = _
  cases tag : frame.vlan with
  | none =>
    have size : frame.headerLength = 14 := by simp [Ethernet.headerLength, tag]
    have header := ethernet_untagged stack.sourceMac stack.destinationMac tag
    rw [size] at long
    rw [stack.etherType] at header
    obtain ⟨room, enough, outer⟩ :=
      Layer.ofBytes_of_read 0 le_rfl long (by decide) first toDatagram header
    rw [outer, Nat.zero_add, ofBytes_datagram stack enough, lowerLayers, linkLayers, tag, size]
    rfl
  | some id =>
    have size : frame.headerLength = 18 := by simp [Ethernet.headerLength, tag]
    have header := ethernet_tagged stack.sourceMac stack.destinationMac tag (stack.vlan id tag)
    have inside := vlan_tagged (stack.vlan id tag) frame.etherType frame.payload
    have toTag : Stage.link EtherType.vlan ≠ .first := by simp
    have tags : Protocol.next? Protocol.all
        ((Stage.link EtherType.vlan).context Protocol.ethernetLink) = some .vlan := rfl
    have split : frame.toBytes.length
        = 14 + (tagged id frame.etherType frame.payload).length := by
      rw [long, size, length_tagged]
      omega
    have split' := length_tagged id frame.etherType frame.payload
    rw [stack.etherType] at header inside split split'
    obtain ⟨room, enough, outer⟩ :=
      Layer.ofBytes_of_read 0 le_rfl split (by decide) first toTag header
    obtain ⟨room, enough, tagged⟩ :=
      Layer.ofBytes_of_read (0 + 14) enough split' (by decide) tags toDatagram inside
    rw [outer, tagged, ofBytes_datagram stack enough, lowerLayers, linkLayers, tag, size,
      stack.etherType]
    rfl

theorem drop_stack :
    frame.toBytes.drop (frame.headerLength + 20 + body.headerLength) = body.payload := by
  have inside : body.toBytes.drop body.headerLength = body.payload := by
    cases body <;> rfl
  rw [← List.drop_drop, ← List.drop_drop,
    Ethernet.drop_toBytes stack.sourceMac stack.destinationMac, stack.carries,
    Ipv4.drop_toBytes stack.source stack.destination, stack.holds, inside]

theorem length_stack :
    frame.toBytes.length
      = frame.headerLength + 20 + body.headerLength + body.payload.length := by
  rw [Ethernet.length_toBytes stack.sourceMac stack.destinationMac, stack.carries,
    Ipv4.length_toBytes stack.source stack.destination, stack.holds, body.length_toBytes]
  omega

end Stack

section Parts

variable (frame : Ethernet) (datagram : Ipv4) (body : Body)

theorem parts_lowerLayers :
    (lowerLayers frame datagram body).map (fun layer => (layer.protocol, layer.reading.fields))
      = partsOf frame datagram body := by
  unfold lowerLayers linkLayers partsOf
  cases frame.vlan <;> rfl

theorem lowerLayers_whole : ∀ layer ∈ lowerLayers frame datagram body,
    layer.protocol.isApplication = false ∧ layer.reading.isComplete = true := by
  have upper : ∀ layer ∈ upperLayers datagram body frame.headerLength,
      layer.protocol.isApplication = false ∧ layer.reading.isComplete = true := by
    cases body <;> simp [upperLayers, Layer.whole, Body.protocol, Protocol.isApplication]
  have link : ∀ layer ∈ linkLayers frame,
      layer.protocol.isApplication = false ∧ layer.reading.isComplete = true := by
    unfold linkLayers
    cases frame.vlan <;> simp [Layer.whole, Protocol.isApplication]
  exact List.forall_mem_append.mpr ⟨link, upper⟩

theorem protocol_of_mem_dnsLayers {linkType : UInt16} {start : Nat} {layer : Layer}
    (member : layer ∈ dnsLayers linkType body start) : layer.protocol = .dns := by
  unfold dnsLayers at member
  split at member
  next => rw [List.mem_singleton.mp member, Layer.readAt_protocol]
  next => cases member

theorem distinct_parts : ((partsOf frame datagram body).map (·.1) ++ [Protocol.dns]).Nodup := by
  unfold partsOf
  cases frame.vlan <;> cases body <;> simp [Body.protocol]

theorem distinct_fields : ∀ part ∈ partsOf frame datagram body, (part.2.map (·.1)).Nodup := by
  have body_ : (body.fields.map (·.1)).Nodup := by
    cases body <;> simp [Body.fields, Tcp.fields, Udp.fields, Icmp.echoFields]
  have datagram_ : (datagram.fields.map (·.1)).Nodup := by
    simp [Ipv4.fields]
  have frame_ : (frame.fields.map (·.1)).Nodup := by
    simp [Ethernet.fields]
  have tag : ∀ id, ((tagFields id frame.etherType).map (·.1)).Nodup := by
    simp [tagFields]
  unfold partsOf
  cases frame.vlan <;> simp [body_, datagram_, frame_, tag]

end Parts

section Decode

variable {frame : Ethernet} {datagram : Ipv4} {body : Body} (stack : IsStack frame datagram body)
include stack

theorem protocols_stack :
    (Layer.ofFrame Protocol.all Protocol.ethernetLink frame.toBytes).map (·.protocol)
      = (partsOf frame datagram body).map (·.1)
        ++ if body.payload ≠ [] ∧ (53 : UInt16) ∈ body.ports then [.dns] else [] := by
  have lower : (lowerLayers frame datagram body).map (·.protocol)
      = (partsOf frame datagram body).map (·.1) := by
    rw [← parts_lowerLayers, List.map_map]
    rfl
  rw [ofFrame_stack stack, List.map_append, lower, dnsLayers]
  split <;> rfl

theorem field?_stack (capture : Capture) {part : Protocol × List (String × FieldValue)}
    (member : part ∈ partsOf frame datagram body) {word : String}
    (named : part.1.isNamed word = true) (name : String) (value : FieldValue) :
    (Packet.decode Protocol.all Protocol.ethernetLink frame.toBytes capture).field?
        (word ++ "." ++ name) = some value
      ↔ (name, value) ∈ part.2 := by
  let layers := Layer.ofFrame Protocol.all Protocol.ethernetLink frame.toBytes
  -- no protocol has two layers, whether or not there is one of DNS
  have distinct : (layers.map (·.protocol)).Nodup := by
    refine (distinct_parts frame datagram body).sublist ?_
    rw [protocols_stack stack]
    refine List.Sublist.append_left ?_ _
    split
    next => exact .refl _
    next => exact List.nil_sublist _
  have fields := distinct_fields frame datagram body part member
  rw [← parts_lowerLayers] at member
  obtain ⟨layer, inside, rfl⟩ := List.mem_map.mp member
  have whole : layer ∈ layers := by
    change layer ∈ Layer.ofFrame Protocol.all Protocol.ethernetLink frame.toBytes
    rw [ofFrame_stack stack]
    exact List.mem_append_left _ inside
  have found : layers.find? (·.protocol == layer.protocol) = some layer :=
    (find?_key distinct layer.protocol layer).mpr ⟨whole, rfl⟩
  rw [Packet.field?_dotted _ named]
  change (layers.find? (·.protocol == layer.protocol)).bind _ = some value ↔ _
  rw [found]
  exact Reading.field?_eq_some_iff fields name value

theorem payloadStart_stack (capture : Capture) :
    (Packet.decode Protocol.all Protocol.ethernetLink frame.toBytes capture).payloadStart
      = frame.headerLength + 20 + body.headerLength := by
  have kept : (lowerLayers frame datagram body).filter (!·.protocol.isApplication)
      = lowerLayers frame datagram body := by
    refine List.filter_eq_self.mpr fun layer member => ?_
    rw [(lowerLayers_whole frame datagram body layer member).1]
    rfl
  have dropped : ∀ start, (dnsLayers Protocol.ethernetLink body start).filter
      (!·.protocol.isApplication) = [] := by
    intro start
    refine List.filter_eq_nil_iff.mpr fun layer member => ?_
    rw [protocol_of_mem_dnsLayers body member]
    decide
  have last : (lowerLayers frame datagram body).getLast?
      = some (.whole body.protocol (frame.headerLength + 20) body.headerLength body.fields
        body.payload body.stage) := by
    simp [lowerLayers, upperLayers]
  rw [Packet.payloadStart, Packet.decode, ofFrame_stack stack, List.filter_append, kept, dropped,
    List.append_nil, last]
  rfl

theorem payload_stack (capture : Capture) :
    (Packet.decode Protocol.all Protocol.ethernetLink frame.toBytes capture).bytes? "payload" 0
      body.payload.length = some body.payload := by
  have base : (Packet.decode Protocol.all Protocol.ethernetLink frame.toBytes capture).baseStart?
      "payload" = some (frame.headerLength + 20 + body.headerLength) := by
    rw [← payloadStart_stack stack capture]
    rfl
  have inside : frame.headerLength + 20 + body.headerLength + 0 + body.payload.length
      ≤ frame.toBytes.length := by
    rw [length_stack stack]
    exact Nat.le_refl _
  rw [Packet.bytes?, base, Option.bind_some]
  change Bytes.slice? frame.toBytes _ _ = _
  rw [Bytes.slice?, if_pos inside, Bytes.slice, Nat.add_zero, drop_stack stack, List.take_length]

/-- Decoding the bytes of a stack gives back what it was put together from. -/
theorem decode_stack (capture : Capture) :
    let p := Packet.decode Protocol.all Protocol.ethernetLink frame.toBytes capture
    p.layers.map (·.protocol) = (partsOf frame datagram body).map (·.1)
        ++ (if body.payload ≠ [] ∧ (53 : UInt16) ∈ body.ports then [.dns] else []) ∧
      (∀ layer ∈ p.layers, layer.protocol ≠ .dns → layer.reading.isComplete = true) ∧
      (∀ part ∈ partsOf frame datagram body, ∀ word, part.1.isNamed word = true →
        ∀ name value, p.field? (word ++ "." ++ name) = some value ↔ (name, value) ∈ part.2) ∧
      (∀ s, body = .tcp s → ∃ n, p.field? "tcp.len" = some (.u32 n) ∧
        n.toNat = s.payload.length) ∧
      (∀ d, body = .udp d → ∃ n, p.field? "udp.len" = some (.u16 n) ∧
        n.toNat = 8 + d.payload.length) ∧
      p.bytes? "payload" 0 body.payload.length = some body.payload := by
  intro p
  have fields : ∀ part ∈ partsOf frame datagram body, ∀ word, part.1.isNamed word = true →
      ∀ name value, p.field? (word ++ "." ++ name) = some value ↔ (name, value) ∈ part.2 :=
    fun part member word named => field?_stack stack capture member named
  have top : (body.protocol, body.fields) ∈ partsOf frame datagram body :=
    List.mem_append_right _ (List.mem_cons_of_mem _ List.mem_cons_self)
  -- the lengths in the headers are those of the parts: none of them wraps
  have short := stack.fits
  rw [body.length_toBytes] at short
  refine ⟨protocols_stack stack, ?_, fields, ?_, ?_, payload_stack stack capture⟩
  · intro layer member below
    change layer ∈ Layer.ofFrame Protocol.all Protocol.ethernetLink frame.toBytes at member
    rw [ofFrame_stack stack] at member
    rcases List.mem_append.mp member with lower | dns
    · exact (lowerLayers_whole frame datagram body layer lower).2
    · exact absurd (protocol_of_mem_dnsLayers body dns) below
  · rintro s rfl
    have named : Protocol.tcp.isNamed "tcp" = true := by decide
    have size : s.payload.length < 4294967296 := by
      simp only [Body.payload] at short
      omega
    refine ⟨.ofNat s.payload.length, (fields _ top "tcp" named "len" _).mpr ?_,
      UInt32.toNat_ofNat_of_lt' size⟩
    simp [Body.fields, Tcp.fields]
  · rintro d rfl
    have named : Protocol.udp.isNamed "udp" = true := by decide
    have size : 8 + d.payload.length < 65536 := by
      simp only [Body.payload, Body.headerLength] at short
      omega
    refine ⟨.ofNat (8 + d.payload.length), (fields _ top "udp" named "len" _).mpr ?_,
      UInt16.toNat_ofNat_of_lt' size⟩
    simp [Body.fields, Udp.fields]

end Decode

/-- A tagged frame with a datagram to the port of DNS that holds no DNS message. -/
theorem decode_stack_tagged :
    let body : Body := .udp { source := 1000, destination := 53, payload := [1, 2] }
    let datagram : Ipv4 := { protocol := 17, ttl := 9, payload := body.toBytes }
    let frame : Ethernet := { vlan := some 5, payload := datagram.toBytes }
    IsStack frame datagram body ∧ ∀ capture,
      let p := Packet.decode Protocol.all Protocol.ethernetLink frame.toBytes capture
      p.layers.map (·.protocol) = [.ethernet, .vlan, .ipv4, .udp, .dns] ∧
        p.field? "eth.type" = some (.u16 0x8100) ∧ p.field? "VLAN.id" = some (.u16 5) ∧
        p.field? "ip.ttl" = some (.u8 9) ∧ p.field? "Udp.len" = some (.u16 10) ∧
        p.bytes? "payload" 0 2 = some [1, 2] := by
  intro body datagram frame
  have stack : IsStack frame datagram body :=
    ⟨rfl, rfl, rfl, rfl, rfl, rfl, fun _ tag => Option.some.inj tag ▸ by decide, rfl, rfl, by decide⟩
  refine ⟨stack, fun capture => ?_⟩
  obtain ⟨layers, _, fields, _, _, payload⟩ := decode_stack stack capture
  have ethernet := fields (.ethernet, frame.fields) (by simp [partsOf]) "eth" (by decide)
  have vlan := fields (.vlan, tagFields 5 0x0800) (by simp [partsOf, frame]) "VLAN" (by decide)
  have ipv4 := fields (.ipv4, datagram.fields) (by simp [partsOf]) "ip" (by decide)
  have udp := fields (.udp, body.fields) (by simp [partsOf, body, Body.protocol]) "Udp" (by decide)
  refine ⟨layers, (ethernet "type" _).mpr ?_, (vlan "id" _).mpr ?_, (ipv4 "ttl" _).mpr ?_,
    (udp "len" _).mpr ?_, payload⟩
  · simp [Ethernet.fields, frame]
  · simp [tagFields]
  · simp [Ipv4.fields, datagram]
  · simp [Body.fields, Udp.fields, body]

end Assembly

end PacketQuery
