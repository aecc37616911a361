import PacketQuery.Proofs.Frame.Reading
/-!
The stages of a decoding: what the last header said of the next one. Every header that is read to
its end hands on the facts of one stage, and a protocol claims only from the stage below it.
-/

namespace PacketQuery

/-- How far the decoding of a frame has come. -/
inductive Stage
  | first
  /-- After a link header. -/
  | link (etherType : Nat)
  /-- After an IP header. -/
  | network (protocol version length : Nat)
  /-- After TCP or UDP. -/
  | transport (source destination protocol : Nat)
  /-- After a header that says nothing of the next. -/
  | closed
  deriving DecidableEq

namespace Stage

/-- The facts that the last header handed on. -/
def hints : Stage → List (Hint × Nat)
  | first | closed => []
  | link etherType => [(.etherType, etherType)]
  | network protocol version length =>
    [(.ipProtocol, protocol), (.ipVersion, version), (.ipPayloadLength, length)]
  | transport source destination protocol =>
    [(.sourcePort, source), (.destinationPort, destination), (.transport, protocol)]

/-- What is known at a stage. -/
def context (linkType : UInt16) (stage : Stage) : Context :=
  ⟨linkType, decide (stage = first), stage.hints⟩

/-- The number of headers that lie below at least, with one for the tags between. -/
def height : Stage → Nat
  | first => 0
  | link _ => 1
  | network .. => 3
  | transport .. => 4
  | closed => 5

/-- One of the ports is that of DNS. -/
def CarriesDns : Stage → Prop
  | transport source destination _ => source = Header.dnsPort ∨ destination = Header.dnsPort
  | _ => False

/-- The stage that a header of a protocol can lead to. -/
inductive Follows : Protocol → Stage → Prop
  | ethernet (etherType : Nat) : Follows .ethernet (link etherType)
  | vlan (etherType : Nat) : Follows .vlan (link etherType)
  | arp : Follows .arp closed
  | ipv4 (protocol length : Nat) : Follows .ipv4 (network protocol 4 length)
  | ipv6 (protocol length : Nat) : Follows .ipv6 (network protocol 6 length)
  | tcp (source destination : Nat) : Follows .tcp (transport source destination IpProtocol.tcp)
  | udp (source destination : Nat) : Follows .udp (transport source destination IpProtocol.udp)
  | icmp : Follows .icmp closed
  | dns : Follows .dns closed

end Stage

/-- The place of a protocol in a frame: no header follows one of a greater height, and of one
height only tags follow each other. -/
def Protocol.height : Protocol → Nat
  | ethernet => 0
  | vlan => 1
  | arp | ipv4 | ipv6 => 2
  | tcp | udp | icmp => 3
  | dns => 4

namespace Stage

variable {linkType : UInt16} {stage : Stage} {p : Protocol}

/-- A protocol claims only from a stage below its place. -/
theorem height_le_of_claims (h : p.claims (stage.context linkType) = true) :
    stage.height ≤ p.height := by
  revert h
  cases stage <;> cases p <;>
    simp [Protocol.claims, context, hints, Context.hint?, height, Protocol.height]

theorem carriesDns_of_claims (h : Protocol.dns.claims (stage.context linkType) = true) :
    stage.CarriesDns := by
  cases stage with
  | transport source destination protocol =>
    simpa [CarriesDns, Protocol.claims, context, hints, Context.hint?] using h
  | _ => simp [Protocol.claims, context, hints, Context.hint?] at h

theorem Follows.height_le (h : Follows p stage) : p.height ≤ stage.height := by
  cases h <;> simp [height, Protocol.height]

theorem Follows.height_lt (h : Follows p stage) (untagged : p ≠ .vlan) :
    p.height < stage.height := by
  cases h with
  | vlan => exact absurd rfl untagged
  | _ => simp [height, Protocol.height]

theorem Follows.ne_first (h : Follows p stage) : stage ≠ first := by
  cases h <;> simp

end Stage

theorem Protocol.height_lower {p : Protocol} (h : p ∈ lower) : p.height ≤ 3 := by
  revert p
  decide

/-- A header that is read to its end leads to a stage of its protocol. -/
theorem Protocol.read_follows {p : Protocol} {data : Bytes} {context : Context}
    (h : (p.read data context).isComplete = true) :
    ∃ stage, Stage.Follows p stage ∧ (p.read data context).hints = stage.hints := by
  cases p with
  | tcp =>
    obtain ⟨source, destination, _, _, hints⟩ := read_transport (.inl rfl) h
    exact ⟨_, .tcp source.toNat destination.toNat, hints⟩
  | udp =>
    obtain ⟨source, destination, _, _, hints⟩ := read_transport (.inr rfl) h
    exact ⟨_, .udp source.toNat destination.toNat, hints⟩
  | dns => exact ⟨.closed, .dns, Header.dns_hints⟩
  | ethernet =>
    simp only [read, Header.ethernet] at h ⊢
    obtain ⟨whole, h⟩ := Reading.checked h
    rw [whole]
    exact ⟨_, .ethernet (Bytes.word16 data 12).toNat, rfl⟩
  | vlan =>
    simp only [read, Header.vlan] at h ⊢
    obtain ⟨whole, h⟩ := Reading.checked h
    rw [whole]
    exact ⟨_, .vlan (Bytes.word16 data 2).toNat, rfl⟩
  | arp =>
    simp only [read, Header.arp] at h ⊢
    obtain ⟨whole, h⟩ := Reading.checked h
    rw [whole]
    exact ⟨_, .arp, rfl⟩
  | icmp =>
    simp only [read, Header.icmp] at h ⊢
    obtain ⟨whole, h⟩ := Reading.checked h
    rw [whole]
    exact ⟨_, .icmp, rfl⟩
  | ipv4 =>
    simp only [read, Header.ipv4] at h ⊢
    obtain ⟨whole, h⟩ := Reading.checked h
    obtain ⟨version, h⟩ := Reading.checked h
    obtain ⟨words, h⟩ := Reading.checked h
    obtain ⟨options, h⟩ := Reading.checked h
    rw [whole, version, words, options]
    exact ⟨_, .ipv4 _ _, rfl⟩
  | ipv6 =>
    simp only [read, Header.ipv6] at h ⊢
    obtain ⟨whole, h⟩ := Reading.checked h
    obtain ⟨version, h⟩ := Reading.checked h
    rw [whole, version]
    exact ⟨_, .ipv6 _ _, rfl⟩

end PacketQuery
