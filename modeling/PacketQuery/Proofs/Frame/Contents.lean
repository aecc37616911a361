import PacketQuery.Proofs.Frame.Dissection
import PacketQuery.Proofs.Frame.Layering
/-!
What the layers of a packet show: their protocols and fields, without the places where they stand
and what they handed on. Fields outside the pseudo-layer `frame` and the names that a packet
answers to come from nothing else. Bytes that follow a header which was read to its end are handed
on and change nothing in it.
-/

namespace PacketQuery

/-! ### Packets by what their layers show -/

/-- The protocol and the fields of a layer. -/
def Layer.content (layer : Layer) : Protocol × List (String × FieldValue) :=
  (layer.protocol, layer.reading.fields)

abbrev Contents := List (Protocol × List (String × FieldValue))

/-- The first field with the given name. -/
def fieldOf? (name : String) (fields : List (String × FieldValue)) : Option FieldValue :=
  (fields.find? (·.1 == name)).map (·.2)

/-- The field of the first layer of a protocol. -/
def Contents.field? (c : Contents) (p : Protocol) (name : String) : Option FieldValue :=
  (c.find? (·.1 == p)).bind (fieldOf? name ·.2)

namespace Packet

def contents (p : Packet) : Contents :=
  p.layers.map Layer.content

/-- The name is of a field of the pseudo-layer `frame`. -/
def isFrameField (name : String) : Bool :=
  (Text.cut '.' name).any (Text.same "frame" ·.1)

theorem find?_contents (p : Packet) (test : Protocol → Bool) :
    (p.layers.find? (test ·.protocol)).map Layer.content = p.contents.find? (test ·.1) := by
  rw [contents, List.find?_map]
  rfl

variable {p q : Packet}

theorem map_find?_congr (same : p.contents = q.contents) (test : Protocol → Bool)
    {α : Type} (f : Protocol × List (String × FieldValue) → α) :
    (p.layers.find? (test ·.protocol)).map (f ·.content)
      = (q.layers.find? (test ·.protocol)).map (f ·.content) := by
  have found := congrArg (Option.map f)
    ((p.find?_contents test).trans (same ▸ (q.find?_contents test).symm))
  rwa [Option.map_map, Option.map_map] at found

theorem bind_find?_congr (same : p.contents = q.contents) (test : Protocol → Bool)
    {α : Type} (f : Protocol × List (String × FieldValue) → Option α) :
    (p.layers.find? (test ·.protocol)).bind (f ·.content)
      = (q.layers.find? (test ·.protocol)).bind (f ·.content) := by
  have found := congrArg (Option.bind · f)
    ((p.find?_contents test).trans (same ▸ (q.find?_contents test).symm))
  rw [Option.bind_map, Option.bind_map] at found
  exact found

/-- A field outside the pseudo-layer is one of the contents. -/
theorem field?_congr (same : p.contents = q.contents) {name : String}
    (outside : isFrameField name = false) : p.field? name = q.field? name := by
  unfold field?
  unfold isFrameField at outside
  split
  next => rfl
  next layer field parts =>
    have proper : Text.same "frame" layer = false := by
      rwa [parts, Option.any_some] at outside
    simp only [proper, Bool.false_eq_true, if_false]
    exact bind_find?_congr same (·.isNamed layer) (fieldOf? field ·.2)

theorem field?_eq_contents (p : Packet) (q : Protocol) (name : String) :
    p.field? (q.name ++ "." ++ name) = p.contents.field? q name := by
  have named : q.isNamed q.name = true := by cases q <;> decide
  rw [p.field?_dotted named, Contents.field?, ← p.find?_contents (· == q), Option.bind_map]
  rfl

theorem isFrameField_dotted (q : Protocol) (name : String) :
    isFrameField (q.name ++ "." ++ name) = false := by
  have named : q.isNamed q.name = true := by cases q <;> decide
  obtain ⟨_, plain, proper⟩ := Protocol.word_of_isNamed named
  have parts : Text.cut '.' (q.name ++ "." ++ name) = some (q.name, name) :=
    Text.cut_eq_some plain (by simp)
  rw [isFrameField, parts, Option.any_some, proper]

theorem protocolNames_congr (same : p.contents = q.contents) :
    p.protocolNames = q.protocolNames := by
  have names : p.layers.map (·.protocol.name) = q.layers.map (·.protocol.name) := by
    have names := congrArg (List.map (·.1.name)) same
    rwa [contents, contents, List.map_map, List.map_map] at names
  have services : p.services = q.services := by
    have found := bind_find?_congr same (fun t => t == .tcp || t == .udp)
      fun (protocol, fields) => (fieldOf? "sport" fields).bind fun source =>
        source.unsigned?.bind fun source => (fieldOf? "dport" fields).bind fun destination =>
          destination.unsigned?.bind fun destination =>
            some (Service.namesOf (ipProtocolOf protocol) source destination)
    exact congrArg (Option.getD · []) found
  have unreachable_ : p.isUnreachable = q.isUnreachable := by
    have found := congrArg (Option.getD · false) (map_find?_congr same (· == .icmp)
      fun content => fieldOf? "type" content.2 == some (.u8 Header.unreachable))
    have unfolded : ∀ r : Packet, r.isUnreachable
        = ((r.layers.find? (·.protocol == .icmp)).map fun layer =>
            layer.reading.field? "type" == some (.u8 Header.unreachable)).getD false := by
      intro r
      unfold isUnreachable
      cases r.layers.find? (·.protocol == .icmp) <;> rfl
    rw [unfolded p, unfolded q]
    exact found
  rw [protocolNames, protocolNames, names, tags, tags, services, unreachable_]

end Packet

/-! ### Headers and what follows them -/

/-- The reading of the same header where more bytes follow. -/
def Reading.followedBy (r : Reading) (after : Bytes) : Reading :=
  { r with rest := r.rest ++ after }

namespace Header

variable {data : Bytes} {context : Context}

theorem ethernet_isComplete : (ethernet data).isComplete = true ↔ 14 ≤ data.length := by
  rw [ethernet]
  split <;> simp <;> omega

theorem vlan_isComplete : (vlan data).isComplete = true ↔ 4 ≤ data.length := by
  rw [vlan]
  split <;> simp <;> omega

theorem arp_isComplete : (arp data).isComplete = true ↔ 28 ≤ data.length := by
  rw [arp]
  split <;> simp <;> omega

theorem icmp_isComplete : (icmp data).isComplete = true ↔ 8 ≤ data.length := by
  rw [icmp]
  split <;> simp <;> omega

theorem udp_isComplete : (udp data).isComplete = true ↔ 8 ≤ data.length := by
  rw [udp]
  split <;> simp <;> omega

theorem ipv6_isComplete : (ipv6 data).isComplete = true ↔
    40 ≤ data.length ∧ (Bytes.byte data 0).toNat / 16 = 6 := by
  simp only [ipv6]
  split
  next => simp; omega
  next => split <;> simp <;> omega

/-- The length that an IPv4 header announces for itself. -/
def ipv4Length (data : Bytes) : Nat :=
  (Bytes.byte data 0).toNat % 16 * 4

theorem ipv4_isComplete : (ipv4 data).isComplete = true ↔
    (Bytes.byte data 0).toNat / 16 = 4 ∧ 20 ≤ ipv4Length data ∧
      ipv4Length data ≤ data.length := by
  simp only [ipv4, ipv4Length]
  split
  next => simp; omega
  next =>
    split
    next => simp; omega
    next =>
      split
      next => simp; omega
      next => split <;> simp <;> omega

/-- The length that a TCP header announces for itself. -/
def tcpLength (data : Bytes) : Nat :=
  (Bytes.byte data 12).toNat / 16 * 4

theorem tcp_isComplete : (tcp data context).isComplete = true ↔
    20 ≤ tcpLength data ∧ tcpLength data ≤ data.length := by
  simp only [tcp, tcpLength]
  split
  next => simp; omega
  next =>
    split
    next => simp; omega
    next => split <;> simp <;> omega

/-- What a TCP header counts as segment data does not change with what follows the datagram. -/
theorem segmentLength_append {n length : Nat} (announced : context.hint? .ipPayloadLength = some n)
    (held : n ≤ data.length) (after : Bytes) :
    segmentLength context length (data.drop length ++ after)
      = segmentLength context length (data.drop length) := by
  simp only [segmentLength, announced, List.length_append, List.length_drop]
  omega

end Header

/-- The length that the IP header announced is there. -/
def Context.Announces (context : Context) (data : Bytes) : Prop :=
  ∃ n ≤ data.length, context.hint? .ipPayloadLength = some n

/-- Below the applications, bytes that follow a header which is read to its end are handed on. -/
theorem Protocol.read_append {p : Protocol} {data : Bytes} {context : Context}
    (lower : p.isApplication = false) (announced : p = .tcp → context.Announces data)
    (complete : (p.read data context).isComplete = true) (after : Bytes) :
    p.read (data ++ after) context = (p.read data context).followedBy after := by
  have long : (data ++ after).length = data.length + after.length := List.length_append
  cases p with
  | dns => cases lower
  | ethernet =>
    have length := Header.ethernet_isComplete.mp complete
    simp (disch := omega) only [read, Header.ethernet, if_neg, Bytes.word16_append,
      Bytes.slice_append, List.drop_append_of_le_length]
    rfl
  | vlan =>
    have length := Header.vlan_isComplete.mp complete
    simp (disch := omega) only [read, Header.vlan, if_neg, Bytes.word16_append,
      List.drop_append_of_le_length]
    rfl
  | arp =>
    have length := Header.arp_isComplete.mp complete
    simp (disch := omega) only [read, Header.arp, if_neg, Bytes.word16_append, Bytes.byte_append,
      Bytes.slice_append, List.drop_append_of_le_length]
    rfl
  | icmp =>
    have length := Header.icmp_isComplete.mp complete
    simp (disch := omega) only [read, Header.icmp, if_neg, Bytes.word16_append, Bytes.byte_append,
      List.drop_append_of_le_length]
    rfl
  | udp =>
    have length := Header.udp_isComplete.mp complete
    simp (disch := omega) only [read, Header.udp, if_neg, Bytes.word16_append,
      List.drop_append_of_le_length]
    rfl
  | ipv6 =>
    obtain ⟨length, version⟩ := Header.ipv6_isComplete.mp complete
    simp (disch := omega) only [read, Header.ipv6, if_neg, Bytes.word16_append,
      Bytes.word32_append, Bytes.byte_append, Bytes.slice_append, List.drop_append_of_le_length]
    rfl
  | ipv4 =>
    obtain ⟨version, words, length⟩ := Header.ipv4_isComplete.mp complete
    unfold Header.ipv4Length at words length
    simp (disch := omega) only [read, Header.ipv4, if_neg, Bytes.word16_append,
      Bytes.byte_append, Bytes.slice_append, List.drop_append_of_le_length]
    rfl
  | tcp =>
    obtain ⟨words, length⟩ := Header.tcp_isComplete.mp complete
    unfold Header.tcpLength at words length
    -- The one field that tells of the bytes behind the header is the segment's length.
    obtain ⟨n, held, announced⟩ := announced rfl
    simp (disch := omega) only [read, Header.tcp, if_neg, Bytes.word16_append,
      Bytes.word32_append, Bytes.byte_append, List.drop_append_of_le_length,
      Header.segmentLength_append announced held]
    rfl

/-! ### What a stage shows -/

namespace Stage

/-- The protocol that claims what stands at a stage of an Ethernet frame. -/
abbrev claimant (stage : Stage) : Option Protocol :=
  Protocol.next? Protocol.all (stage.context Protocol.ethernetLink)

/-- A header that is read at a stage of an Ethernet frame. -/
abbrev reading (stage : Stage) (p : Protocol) (data : Bytes) : Reading :=
  p.read data (stage.context Protocol.ethernetLink)

/-- What is shown of `data` from a stage of an Ethernet frame on. -/
def contents (stage : Stage) (data : Bytes) : Contents :=
  (Layer.ofBytes Protocol.all data.length (stage.context Protocol.ethernetLink) 0 data).map
    Layer.content

end Stage

/-- Layers show the same wherever they stand. -/
theorem Layer.map_content_ofBytes (set : List Protocol) (room : Nat) (context : Context)
    (start start' : Nat) (data : Bytes) :
    (ofBytes set room context start data).map content
      = (ofBytes set room context start' data).map content := by
  induction room generalizing context start start' data with
  | zero => rfl
  | succ room ih =>
    simp only [ofBytes]
    split
    next => rfl
    next =>
      split
      next => rfl
      next =>
        split
        next => exact congrArg₂ List.cons rfl (ih _ _ _ _)
        next => rfl

theorem Decodes.contents_eq {stage : Stage} {start : Nat} {data : Bytes} {layers : List Layer}
    (h : Decodes Protocol.all (stage.context Protocol.ethernetLink) start data layers) :
    layers.map Layer.content = stage.contents data := by
  rw [h.eq_ofBytes (Nat.le_refl _)]
  exact Layer.map_content_ofBytes _ _ _ _ _ _

namespace Stage

variable {stage : Stage} {p : Protocol} {data : Bytes}

theorem decodes (stage : Stage) (start : Nat) (data : Bytes) :
    ∃ layers, Decodes Protocol.all (stage.context Protocol.ethernetLink) start data layers ∧
      layers.map Layer.content = stage.contents data :=
  have h := Layer.decodes_ofBytes (Nat.le_refl data.length)
  ⟨_, h, h.contents_eq⟩

@[simp] theorem contents_nil (stage : Stage) : stage.contents [] = [] :=
  rfl

theorem contents_unclaimed (claimed : stage.claimant = none) : stage.contents data = [] :=
  (Decodes.unclaimed 0 data claimed).contents_eq.symm

variable (held : data ≠ []) (claimed : stage.claimant = some p)
include held claimed

theorem contents_broken (incomplete : (stage.reading p data).isComplete = false) :
    stage.contents data = [(p, (stage.reading p data).fields)] := by
  have decodes : Decodes Protocol.all (stage.context Protocol.ethernetLink) 0 data _ :=
    .broken held claimed incomplete
  exact decodes.contents_eq.symm

theorem contents_read {next : Stage} (complete : (stage.reading p data).isComplete = true)
    (follows : Follows p next) (hints : (stage.reading p data).hints = next.hints) :
    stage.contents data = (p, (stage.reading p data).fields)
      :: next.contents (stage.reading p data).rest := by
  obtain ⟨layers, rest, shown⟩ := next.decodes
    (Layer.readAt p (stage.context Protocol.ethernetLink) 0 data).stop
    (stage.reading p data).rest
  rw [← follows.context_eq hints] at rest
  rw [← (Decodes.read held claimed complete rest).contents_eq, List.map_cons, shown]
  rfl

/-- What is shown with more bytes behind a header that is read to its end. -/
theorem contents_append {next : Stage} (lower : p.isApplication = false)
    (announced : p = .tcp → (stage.context Protocol.ethernetLink).Announces data)
    (complete : (stage.reading p data).isComplete = true) (follows : Follows p next)
    (hints : (stage.reading p data).hints = next.hints) (after : Bytes) :
    stage.contents (data ++ after) = (p, (stage.reading p data).fields)
      :: next.contents ((stage.reading p data).rest ++ after) := by
  have reads : stage.reading p (data ++ after) = (stage.reading p data).followedBy after :=
    Protocol.read_append lower announced complete after
  have held' : data ++ after ≠ [] := fun empty => held (List.append_eq_nil_iff.mp empty).1
  have complete' : (stage.reading p (data ++ after)).isComplete = true := by
    rw [reads]
    exact complete
  rw [contents_read held' claimed complete' follows (by rw [reads]; exact hints), reads]
  rfl

/-- What changes nothing behind a header that is read to its end changes nothing with it. -/
theorem contents_append_of_behind {next : Stage} (lower : p.isApplication = false)
    (announced : p = .tcp → (stage.context Protocol.ethernetLink).Announces data)
    (complete : (stage.reading p data).isComplete = true) (follows : Follows p next)
    (hints : (stage.reading p data).hints = next.hints) {after : Bytes}
    (behind : next.contents ((stage.reading p data).rest ++ after)
      = next.contents (stage.reading p data).rest) :
    stage.contents (data ++ after) = stage.contents data := by
  rw [contents_append held claimed lower announced complete follows hints, behind,
    contents_read held claimed complete follows hints]

end Stage

/-! ### Link headers -/

theorem Decodes.chain {set : List Protocol} {linkType : UInt16} {stage : Stage} {start : Nat}
    {data : Bytes} {layers : List Layer}
    (h : Decodes set (stage.context linkType) start data layers) :
    Chain linkType stage start layers := by
  rw [h.eq_ofBytes (Nat.le_refl _)]
  exact Layer.ofBytes_chain _ _ _ _ _

namespace Stage

/-- The data shows link headers and then what stands from `place` on, whatever follows it. -/
def LinksTo (stage : Stage) (start : Nat) (data : Bytes) (place : Nat) : Prop :=
  start ≤ place ∧ ∃ below : Contents, (∀ c ∈ below, c.1.height ≤ 1) ∧
    ∀ after, stage.contents (data ++ after)
      = below ++ (link EtherType.ipv4).contents (data.drop (place - start) ++ after)

variable {stage next : Stage} {start place : Nat} {data : Bytes} {p : Protocol}

theorem LinksTo.here (data : Bytes) (start : Nat)
    (claims : Protocol.ipv4.claims (stage.context Protocol.ethernetLink) = true) :
    stage.LinksTo start data start := by
  have linked : stage = link EtherType.ipv4 := by
    cases stage <;> simp [Protocol.claims, context, hints, Context.hint?] at claims
    rw [claims]
  refine ⟨Nat.le_refl _, [], by simp, fun after => ?_⟩
  rw [linked, Nat.sub_self]
  rfl

theorem LinksTo.step (held : data ≠ []) (claimed : stage.claimant = some p)
    (complete : (stage.reading p data).isComplete = true) (follows : Follows p next)
    (hints : (stage.reading p data).hints = next.hints) (low : p.height ≤ 1)
    (rest : next.LinksTo (Layer.readAt p (stage.context Protocol.ethernetLink) start data).stop
      (stage.reading p data).rest place) :
    stage.LinksTo start data place := by
  obtain ⟨behind, below, lows, shown⟩ := rest
  have suffix := (p.tells_read data (stage.context Protocol.ethernetLink)).consumes.suffix
  have apart : p.isApplication = false ∧ p ≠ .tcp := by
    revert low
    cases p <;> decide
  have cut := List.suffix_iff_eq_drop.mp suffix
  have short := suffix.length_le
  simp only [Layer.readAt] at behind shown
  refine ⟨by omega, (p, (stage.reading p data).fields) :: below,
    List.forall_mem_cons.mpr ⟨low, lows⟩, fun after => ?_⟩
  have place_ : data.drop (place - start)
      = (stage.reading p data).rest.drop
          (place - (start + (data.length - (stage.reading p data).rest.length))) := by
    conv => rhs; rw [cut, List.drop_drop]
    congr 1
    rw [← cut]
    omega
  rw [contents_append held claimed apart.1 (fun tcp => absurd tcp apart.2) complete follows hints,
    shown, place_]
  rfl

end Stage

/-- An IPv4 header stands behind link headers. -/
theorem Decodes.linksTo {stage : Stage} {start : Nat} {data : Bytes} {layers : List Layer}
    (h : Decodes Protocol.all (stage.context Protocol.ethernetLink) start data layers)
    {layer : Layer} (member : layer ∈ layers) (ipv4 : layer.protocol = .ipv4) :
    stage.LinksTo start data layer.start := by
  generalize same : stage.context Protocol.ethernetLink = context at h
  induction h generalizing stage with
  | done | unclaimed => cases member
  | @broken _ start data p _ claimed =>
    subst same
    obtain ⟨_, claims⟩ := Protocol.claims_of_next? claimed
    obtain rfl := List.mem_singleton.mp member
    exact .here data start (ipv4 ▸ claims)
  | @read _ start data p layers held claimed complete rest ih =>
    subst same
    obtain ⟨_, claims⟩ := Protocol.claims_of_next? claimed
    rcases List.mem_cons.mp member with rfl | later
    · exact .here data start (ipv4 ▸ claims)
    · obtain ⟨next, follows, hints⟩ := Protocol.read_follows complete
      have linked := ih later (follows.context_eq hints).symm
      rw [show (stage.context Protocol.ethernetLink).linkType = Protocol.ethernetLink from rfl,
        follows.context_eq hints] at rest
      have high := rest.chain.height_le layer later
      rw [ipv4] at high
      -- Only a link header leads to a stage from which an IPv4 header can come.
      have low : p.height ≤ 1 := by
        cases follows <;> simp [Stage.height, Protocol.height] at high ⊢
      exact .step held claimed complete follows hints low linked

end PacketQuery
