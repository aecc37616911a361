import PacketQuery.Proofs.Bytes
import PacketQuery.Proofs.Frame.Layering
import PacketQuery.Value.Basic
/-!
Where the fields of a header stand among its bytes. A field that fills whole bytes has the value of
the big-endian number there, whether it is a number or an address, and the bytes of every layer are
those of the frame from the place of the layer on.
-/

namespace PacketQuery

/-- The bytes of a header that a field takes. -/
structure WirePlace where
  field : String
  offset : Nat
  length : Nat
  deriving DecidableEq, Repr

/-- The places of the fields that fill whole bytes and are numbers or addresses of at most eight
bytes. For DNS they are those of a message without a length before it. -/
def Protocol.wirePlaces : Protocol → List WirePlace
  | ethernet => [⟨"dst", 0, 6⟩, ⟨"src", 6, 6⟩, ⟨"type", 12, 2⟩]
  | vlan => [⟨"type", 2, 2⟩]
  | arp => [⟨"op", 6, 2⟩, ⟨"sha", 8, 6⟩, ⟨"spa", 14, 4⟩, ⟨"tha", 18, 6⟩, ⟨"tpa", 24, 4⟩]
  | ipv4 => [⟨"tos", 1, 1⟩, ⟨"len", 2, 2⟩, ⟨"id", 4, 2⟩, ⟨"ttl", 8, 1⟩, ⟨"proto", 9, 1⟩,
      ⟨"checksum", 10, 2⟩, ⟨"src", 12, 4⟩, ⟨"dst", 16, 4⟩]
  | ipv6 => [⟨"plen", 4, 2⟩, ⟨"nxt", 6, 1⟩, ⟨"hlim", 7, 1⟩]
  | tcp => [⟨"sport", 0, 2⟩, ⟨"dport", 2, 2⟩, ⟨"seq", 4, 4⟩, ⟨"ack", 8, 4⟩, ⟨"win", 14, 2⟩,
      ⟨"checksum", 16, 2⟩, ⟨"urp", 18, 2⟩]
  | udp => [⟨"sport", 0, 2⟩, ⟨"dport", 2, 2⟩, ⟨"len", 4, 2⟩, ⟨"checksum", 6, 2⟩]
  | icmp => [⟨"type", 0, 1⟩, ⟨"code", 1, 1⟩, ⟨"checksum", 2, 2⟩, ⟨"id", 4, 2⟩, ⟨"seq", 6, 2⟩]
  | dns => [⟨"id", 0, 2⟩, ⟨"qdcount", 4, 2⟩, ⟨"ancount", 6, 2⟩]

theorem Protocol.length_wirePlaces {q : Protocol} {w : WirePlace} (listed : w ∈ q.wirePlaces) :
    1 ≤ w.length ∧ w.length ≤ 8 := by
  have all : ∀ q : Protocol, ∀ w ∈ q.wirePlaces, 1 ≤ w.length ∧ w.length ≤ 8 := by
    intro q
    cases q <;> decide
  exact all q w listed

/-- A field has the value of the number that some bytes write. -/
structure Written (data : Bytes) (offset length : Nat) (v : FieldValue) : Prop where
  inside : offset + length ≤ data.length
  value : Value.ofField v = .int (Int64.ofNat (Bytes.toNatBE (Bytes.slice data offset length)))

namespace Written

variable {data : Bytes} {i : Nat}

theorem byte (inside : i + 1 ≤ data.length) : Written data i 1 (.u8 (Bytes.byte data i)) :=
  ⟨inside, by rw [← Bytes.toNat_byte, Value.ofField]⟩

theorem word16 (inside : i + 2 ≤ data.length) : Written data i 2 (.u16 (Bytes.word16 data i)) :=
  ⟨inside, by rw [← Bytes.toNat_word16, Value.ofField]⟩

theorem word32 (inside : i + 4 ≤ data.length) : Written data i 4 (.u32 (Bytes.word32 data i)) :=
  ⟨inside, by rw [← Bytes.toNat_word32, Value.ofField]⟩

theorem ipv4 (inside : i + 4 ≤ data.length) :
    Written data i 4 (.ofIpv4Bytes (Bytes.slice data i 4)) := by
  have length : (Bytes.slice data i 4).length = 4 := by
    rw [Bytes.length_slice]
    omega
  have number : (UInt32.ofNat (Bytes.toNatBE (Bytes.slice data i 4))).toNat
      = Bytes.toNatBE (Bytes.slice data i 4) :=
    UInt32.toNat_ofNat_of_lt' (Bytes.toNatBE_slice_lt data i 4)
  refine ⟨inside, ?_⟩
  rw [FieldValue.ofIpv4Bytes, if_pos (by omega), List.take_of_length_le (by omega), Value.ofField,
    number]

theorem mac (inside : i + 6 ≤ data.length) :
    Written data i 6 (.ofMacBytes (Bytes.slice data i 6)) := by
  have length : (Bytes.slice data i 6).length = 6 := by
    rw [Bytes.length_slice]
    omega
  have short : Bytes.toNatBE (Bytes.slice data i 6) < UInt64.size :=
    Nat.lt_trans (Bytes.toNatBE_slice_lt data i 6) (by decide)
  refine ⟨inside, ?_⟩
  rw [FieldValue.ofMacBytes, if_pos (by omega), List.take_of_length_le (by omega), Value.ofField,
    UInt64.toNat_ofNat_of_lt' short]

/-- What is written in the end of a frame is written in the frame. -/
theorem of_drop {start length : Nat} {v : FieldValue} (places : 1 ≤ length)
    (written : Written (data.drop start) i length v) : Written data (start + i) length v := by
  obtain ⟨inside, value⟩ := written
  rw [List.length_drop] at inside
  refine ⟨by omega, ?_⟩
  rw [value, Bytes.slice, List.drop_drop, Bytes.slice]

end Written

namespace Reading

/-- Of the fields with the given places those that there are are written there. -/
def Shows (data : Bytes) (r : Reading) (ws : List WirePlace) : Prop :=
  ∀ w ∈ ws, ∀ v, r.field? w.field = some v → Written data w.offset w.length v

namespace Shows

variable {data : Bytes} {r : Reading} {ws : List WirePlace} {field : String} {offset length : Nat}

theorem nil : Shows data r [] :=
  nofun

theorem cons {v : FieldValue} (read : r.field? field = some v)
    (written : Written data offset length v) (rest : Shows data r ws) :
    Shows data r (⟨field, offset, length⟩ :: ws) := by
  refine List.forall_mem_cons.mpr ⟨fun v' found => ?_, rest⟩
  rw [read] at found
  cases found
  exact written

theorem skip (absent : r.field? field = none) (rest : Shows data r ws) :
    Shows data r (⟨field, offset, length⟩ :: ws) := by
  refine List.forall_mem_cons.mpr ⟨fun v found => ?_, rest⟩
  rw [absent] at found
  cases found

theorem failed (fault : HeaderFault) (bytes : Bytes) : Shows data (.failed fault bytes) ws := by
  intro w _ v found
  rw [field?_failed] at found
  cases found

theorem check {check : Prop} [Decidable check] {fault : HeaderFault} {bytes : Bytes}
    (passed : ¬ check → Shows data r ws) :
    Shows data (if check then .failed fault bytes else r) ws := by
  split
  next => exact failed fault bytes
  next fails => exact passed fails

end Shows

end Reading

namespace Header

theorem shows_arp (data : Bytes) : (arp data).Shows data Protocol.arp.wirePlaces := by
  refine .check fun long => ?_
  dsimp only
  refine .cons rfl (.word16 (by omega)) ?_
  split
  next =>
    exact .cons rfl (.mac (by omega)) <| .cons rfl (.ipv4 (by omega)) <|
      .cons rfl (.mac (by omega)) <| .cons rfl (.ipv4 (by omega)) .nil
  next => exact .skip rfl <| .skip rfl <| .skip rfl <| .skip rfl .nil

theorem shows_icmp (data : Bytes) : (icmp data).Shows data Protocol.icmp.wirePlaces := by
  refine .check fun long => ?_
  dsimp only
  refine .cons rfl (.byte (by omega)) <| .cons rfl (.byte (by omega)) <|
    .cons rfl (.word16 (by omega)) ?_
  split
  next => exact .cons rfl (.word16 (by omega)) <| .cons rfl (.word16 (by omega)) .nil
  next => exact .skip rfl <| .skip rfl .nil

theorem shows_dnsMessage (message data : Bytes) :
    (dnsMessage message data).Shows message Protocol.dns.wirePlaces := by
  refine .check fun long => ?_
  have fixed : ∀ r : Reading, ∀ more, r.fields = dnsFixedFields message ++ more →
      r.Shows message Protocol.dns.wirePlaces := by
    rintro ⟨fields, rest, hints, fault⟩ more rfl
    exact .cons rfl (.word16 (by omega)) <| .cons rfl (.word16 (by omega)) <|
      .cons rfl (.word16 (by omega)) .nil
  dsimp only
  split
  next => exact fixed _ [] (List.append_nil _).symm
  next =>
    split
    next => exact fixed _ [] (List.append_nil _).symm
    next question _ => exact fixed _ question rfl

end Header

/-- Every header shows its fields at their places; a DNS message does behind anything but TCP. -/
theorem Protocol.shows_read {q : Protocol} {data : Bytes} {context : Context}
    (unframed : q = .dns → context.hint? .transport ≠ some IpProtocol.tcp) :
    (q.read data context).Shows data q.wirePlaces := by
  cases q with
  | ethernet =>
    exact .check fun long => .cons rfl (.mac (by omega)) <| .cons rfl (.mac (by omega)) <|
      .cons rfl (.word16 (by omega)) .nil
  | vlan => exact .check fun long => .cons rfl (.word16 (by omega)) .nil
  | arp => exact Header.shows_arp data
  | ipv4 =>
    exact .check fun long => .check fun _ => .check fun _ => .check fun _ =>
      .cons rfl (.byte (by omega)) <| .cons rfl (.word16 (by omega)) <|
      .cons rfl (.word16 (by omega)) <| .cons rfl (.byte (by omega)) <|
      .cons rfl (.byte (by omega)) <| .cons rfl (.word16 (by omega)) <|
      .cons rfl (.ipv4 (by omega)) <| .cons rfl (.ipv4 (by omega)) .nil
  | ipv6 =>
    exact .check fun long => .check fun _ => .cons rfl (.word16 (by omega)) <|
      .cons rfl (.byte (by omega)) <| .cons rfl (.byte (by omega)) .nil
  | tcp =>
    exact .check fun long => .check fun _ => .check fun _ => .cons rfl (.word16 (by omega)) <|
      .cons rfl (.word16 (by omega)) <| .cons rfl (.word32 (by omega)) <|
      .cons rfl (.word32 (by omega)) <| .cons rfl (.word16 (by omega)) <|
      .cons rfl (.word16 (by omega)) <| .cons rfl (.word16 (by omega)) .nil
  | udp =>
    exact .check fun long => .cons rfl (.word16 (by omega)) <| .cons rfl (.word16 (by omega)) <|
      .cons rfl (.word16 (by omega)) <| .cons rfl (.word16 (by omega)) .nil
  | icmp => exact Header.shows_icmp data
  | dns =>
    rw [read, Header.dns, if_neg (unframed rfl)]
    exact Header.shows_dnsMessage data data

section Layers

variable {set : List Protocol} {linkType : UInt16} {frame : Bytes}

/-- Every layer is read from its place in the frame, at the stage where the decoding starts or one
that another layer leads to. -/
theorem Decodes.read_in_frame {stage : Stage} {start : Nat} {data : Bytes} {layers : List Layer}
    (h : Decodes set (stage.context linkType) start data layers) (place : frame.drop start = data) :
    ∀ layer ∈ layers, ∃ at_ : Stage,
      layer.reading = layer.protocol.read (frame.drop layer.start) (at_.context linkType) ∧
      layer.protocol.claims (at_.context linkType) = true ∧
      (at_ = stage ∨ ∃ below ∈ layers, below.LeadsTo at_) := by
  generalize same : stage.context linkType = context at h
  induction h generalizing stage with
  | done | unclaimed => simp
  | @broken _ start data p _ claimed =>
    subst same place
    obtain ⟨_, claims⟩ := Protocol.claims_of_next? claimed
    exact List.forall_mem_singleton.mpr ⟨stage, rfl, claims, .inl rfl⟩
  | @read _ start data p layers _ claimed complete rest ih =>
    subst same
    obtain ⟨_, claims⟩ := Protocol.claims_of_next? claimed
    obtain ⟨next, follows, hints⟩ := Protocol.read_follows complete
    have leads : (Layer.readAt p (stage.context linkType) start data).LeadsTo next :=
      ⟨complete, follows, hints⟩
    -- what a header gives back stands behind it in the frame
    have behind : frame.drop (Layer.readAt p (stage.context linkType) start data).stop
        = (p.read data (stage.context linkType)).rest := by
      have suffix := (p.tells_read data (stage.context linkType)).consumes.suffix
      rw [Layer.readAt, ← List.drop_drop, place]
      exact (List.suffix_iff_eq_drop.mp suffix).symm
    have later := ih behind (follows.context_eq hints).symm
    refine List.forall_mem_cons.mpr ⟨⟨stage, ?_, claims, .inl rfl⟩, fun layer member => ?_⟩
    · rw [← place]
      rfl
    · obtain ⟨at_, read, claims, reached⟩ := later layer member
      refine ⟨at_, read, claims, .inr ?_⟩
      rcases reached with rfl | ⟨below, inside, leads⟩
      · exact ⟨_, List.mem_cons_self, leads⟩
      · exact ⟨below, List.mem_cons_of_mem _ inside, leads⟩

/-- A frame with a UDP header has none of TCP. -/
theorem Chain.not_tcp_of_udp {stage : Stage} {start : Nat} {layers : List Layer}
    (h : Chain linkType stage start layers) {udp : Layer} (member : udp ∈ layers)
    (isUdp : udp.protocol = .udp) : ∀ layer ∈ layers, layer.protocol ≠ .tcp := by
  let transport (p : Protocol) : Bool := p == .tcp || p == .udp
  have single : ∀ p, transport p = true → p ≠ .vlan ∧ p.height = 3 := by
    intro p
    cases p <;> decide
  intro tcp also isTcp
  have first := h.find?_eq_some single member (by rw [isUdp]; rfl)
  have second := h.find?_eq_some single also (by rw [isTcp]; rfl)
  rw [first, Option.some.injEq] at second
  rw [second, isTcp] at isUdp
  cases isUdp

/-- The fields of every layer are written at their places behind the place of the layer. -/
theorem Layer.written_ofFrame {layer : Layer} (member : layer ∈ ofFrame set linkType frame)
    (overUdp : layer.protocol = .dns → ∃ udp ∈ ofFrame set linkType frame, udp.protocol = .udp)
    {w : WirePlace} (listed : w ∈ layer.protocol.wirePlaces) {v : FieldValue}
    (found : layer.reading.field? w.field = some v) :
    Written frame (layer.start + w.offset) w.length v := by
  have decodes : Decodes set (Stage.first.context linkType) 0 frame (ofFrame set linkType frame) :=
    Decodes.iff_eq_ofFrame.mpr rfl
  obtain ⟨at_, read, claims, reached⟩ := decodes.read_in_frame rfl layer member
  refine Written.of_drop (Protocol.length_wirePlaces listed).1 ?_
  rw [read] at found
  refine Protocol.shows_read (fun dns => ?_) w listed v found
  -- the ports that DNS is told by come from UDP
  rw [dns] at claims
  have carries := Stage.carriesDns_of_claims claims
  obtain ⟨udp, inside, isUdp⟩ := overUdp dns
  rcases reached with rfl | ⟨below, under, leads⟩
  · exact absurd carries id
  · have other := (ofFrame_chain set linkType frame).not_tcp_of_udp inside isUdp below under
    have follows := leads.follows
    generalize below.protocol = q at follows other
    cases follows with
    | tcp => exact absurd rfl other
    | udp => simp [Stage.context, Stage.hints, Context.hint?, IpProtocol.udp, IpProtocol.tcp]
    | _ => exact absurd carries id

end Layers

end PacketQuery
