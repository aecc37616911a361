import PacketQuery.Proofs.Catalog.ProtocolWords
import PacketQuery.Proofs.Catalog.Survey
/-!
The mask of an entry. It is made of the layers below the applications alone, yet it has exactly
the bits of the layers and tags of the whole decoding: a DNS layer comes with the service of its
port, and only one ICMP header can report a destination that cannot be reached.
-/

namespace PacketQuery

/-- A layer or a tag of the packet has the bit. -/
def Packet.Carries (p : Packet) (i : Nat) : Prop :=
  (∃ layer ∈ p.layers, Catalog.position? layer.protocol.name = some i) ∨
    ∃ tag ∈ p.tags, Catalog.position? tag = some i

namespace Catalog

open PacketQuery.Language (isProtocolName)

variable {p : Packet} {word : String}

theorem mem_tags {tag : String} : tag ∈ p.tags ↔
    tag ∈ p.services ∨ (p.isUnreachable = true ∧ tag = Packet.unreachableTag) := by
  unfold Packet.tags
  split
  next h => simp [h]
  next h => simp [h]

theorem mem_namesOf {protocol source destination : Nat} {name : String} :
    name ∈ Service.namesOf protocol source destination ↔ ∃ service ∈ Service.all,
      service.serves protocol source destination = true ∧ service.name = name := by
  simp [Service.namesOf, and_assoc]

/-- No service listens on port zero. -/
theorem namesOf_zero (protocol : Nat) : Service.namesOf protocol 0 0 = [] := by
  have silent : ∀ service ∈ Service.all, 0 ∉ service.ports := by decide
  unfold Service.namesOf
  rw [List.filter_eq_nil_iff.mpr, List.map_nil]
  intro service member
  simp [Service.serves, silent service member]

theorem exists_service_of_mem {tag : String} (h : tag ∈ p.services) :
    ∃ service ∈ Service.all, service.name = tag := by
  have named : ∀ names : Option (List String),
      (∀ found ∈ names, ∃ protocol source destination,
        found = Service.namesOf protocol source destination) →
      tag ∈ names.getD [] → ∃ service ∈ Service.all, service.name = tag := by
    rintro (_ | found) shape member
    · simp at member
    · obtain ⟨protocol, source, destination, rfl⟩ := shape found rfl
      obtain ⟨service, listed, _, name⟩ := mem_namesOf.mp member
      exact ⟨service, listed, name⟩
  refine named _ ?_ h
  intro found member
  simp only [Option.mem_def, Option.bind_eq_bind, Option.bind_eq_some_iff, Option.some.injEq]
    at member
  obtain ⟨layer, _, _, _, source, _, _, _, destination, _, names⟩ := member
  exact ⟨_, source, destination, names.symm⟩

theorem same_tag_iff (known : isProtocolName word = true) {tag : String} (member : tag ∈ p.tags) :
    Text.same tag word = true ↔ position? word = position? tag := by
  rcases mem_tags.mp member with service | ⟨_, rfl⟩
  · obtain ⟨service, listed, rfl⟩ := exists_service_of_mem service
    exact same_service_iff known listed
  · exact same_unreachableTag_iff known

/-- A packet has what a word of the language names exactly where it carries the word's bit. -/
theorem hasLayer_iff (known : isProtocolName word = true) :
    p.hasLayer word = true ↔ ∃ i, position? word = some i ∧ p.Carries i := by
  obtain ⟨i, bit⟩ := Option.isSome_iff_exists.mp (isProtocolName_iff_position?.mp known)
  have layers : (p.layer? word).isSome = true ↔
      ∃ layer ∈ p.layers, position? layer.protocol.name = some i := by
    rw [Packet.layer?, List.find?_isSome]
    refine exists_congr fun layer => and_congr_right fun _ => ?_
    rw [Layer.isNamed, isNamed_iff known, bit, eq_comm]
  have tags : p.tags.any (Text.same · word) = true ↔
      ∃ tag ∈ p.tags, position? tag = some i := by
    rw [List.any_eq_true]
    refine exists_congr fun tag => and_congr_right fun member => ?_
    rw [same_tag_iff known member, bit, eq_comm]
  rw [Packet.hasLayer, not_same_frame known, Bool.false_or, Bool.or_eq_true, layers, tags]
  simp [bit, Packet.Carries]

/-- Whatever name finds a layer, the packet carries its bit. -/
theorem carries_of_layer? (h : (p.layer? word).isSome = true) {i : Nat}
    (bit : position? word = some i) : p.Carries i := by
  obtain ⟨layer, found⟩ := Option.isSome_iff_exists.mp h
  have named : layer.protocol.isNamed word = true := by
    simpa [Layer.isNamed] using List.find?_some found
  rw [position?_of_isNamed named] at bit
  exact .inl ⟨layer, List.mem_of_find?_eq_some found, bit⟩

variable (linkType : UInt16) (frame : Bytes) (capture recorded : Capture)

theorem find?_ofFrame_lower (test : Protocol → Bool)
    (below : ∀ p, test p = true → p.isApplication = false) :
    (Layer.ofFrame Protocol.lower linkType frame).find? (test ·.protocol)
      = (Layer.ofFrame Protocol.all linkType frame).find? (test ·.protocol) := by
  rw [Layer.ofFrame_lower, List.find?_filter]
  congr 1
  funext layer
  cases matched : test layer.protocol with
  | false => simp
  | true => simp [below _ matched]

/-- A header below the applications is the same in both decodings. -/
theorem find?_decode {q : Protocol} (lower : q.isApplication = false) :
    (Packet.decode Protocol.all linkType frame capture).layers.find? (·.protocol == q)
      = (Layer.ofFrame Protocol.lower linkType frame).find? (·.protocol == q) := by
  refine (find?_ofFrame_lower linkType frame (· == q) fun p same => ?_).symm
  rw [beq_iff_eq.mp same]
  exact lower

theorem not_isApplication_of_mem : ∀ layer ∈ Layer.ofFrame Protocol.lower linkType frame,
    layer.protocol.isApplication = false := by
  intro layer member
  rw [Layer.ofFrame_lower] at member
  simpa using (List.mem_filter.mp member).2

theorem transport?_decode : (Packet.decode Protocol.all linkType frame capture).transport?
    = (Layer.ofFrame Protocol.lower linkType frame).find? fun layer =>
        layer.protocol == .tcp || layer.protocol == .udp := by
  refine (find?_ofFrame_lower linkType frame (fun p => p == .tcp || p == .udp) ?_).symm
  intro p h
  revert p
  simp [Protocol.isApplication]

/-- The services told by the ports of the entry are those of the packet. -/
theorem services_ofLayers :
    (Survey.ofLayers (Layer.ofFrame Protocol.lower linkType frame)).services
      = (Packet.decode Protocol.all linkType frame capture).services := by
  have chain := Layer.ofFrame_chain Protocol.lower linkType frame
  unfold Survey.services Packet.services
  rw [Survey.transport_ofLayers chain, Survey.sourcePort_ofLayers chain,
    Survey.destinationPort_ofLayers chain, transport?_decode]
  cases found : (Layer.ofFrame Protocol.lower linkType frame).find? fun layer =>
      layer.protocol == .tcp || layer.protocol == .udp with
  | none => rfl
  | some layer =>
    rcases chain.port_fields found with ⟨source, destination, sport, dport⟩ | missing
    · simp [Survey.portIn, sport, dport, FieldValue.unsigned?, FieldValue.number?]
    · simp [Survey.portIn, missing, namesOf_zero]

theorem reportsUnreachable_iff (reading : Reading) (icmp : ∃ data, reading = Header.icmp data) :
    Survey.reportsUnreachable reading = true ↔
      reading.field? "type" = some (.u8 Header.unreachable) := by
  obtain ⟨data, rfl⟩ := icmp
  unfold Survey.reportsUnreachable
  rcases Header.icmp_type data with missing | ⟨kind, found⟩
  · simp [missing]
  · simp [found, FieldValue.unsigned?, FieldValue.number?, UInt8.toNat_inj]

/-- The entry sees a destination that cannot be reached where the packet reports one. -/
theorem exists_unreachable_iff :
    (∃ layer ∈ Layer.ofFrame Protocol.lower linkType frame, layer.protocol = .icmp ∧
        Survey.reportsUnreachable layer.reading = true)
      ↔ (Packet.decode Protocol.all linkType frame capture).isUnreachable = true := by
  have chain := Layer.ofFrame_chain Protocol.lower linkType frame
  have read : ∀ layer ∈ Layer.ofFrame Protocol.lower linkType frame, layer.protocol = .icmp →
      ∃ data, layer.reading = Header.icmp data := by
    intro layer member icmp
    obtain ⟨data, context, reading⟩ := chain.reading_eq layer member
    rw [icmp] at reading
    exact ⟨data, reading⟩
  unfold Packet.isUnreachable
  rw [find?_decode linkType frame capture rfl]
  constructor
  · rintro ⟨layer, member, icmp, reports⟩
    have place : ∀ p : Protocol, (p == .icmp) = true → p ≠ .vlan ∧ p.height = 3 := by
      simp [Protocol.height]
    have first := chain.find?_eq_some place member (beq_iff_eq.mpr icmp)
    rw [first]
    simpa [reportsUnreachable_iff _ (read layer member icmp)] using reports
  · intro h
    split at h
    next layer first =>
      have member := List.mem_of_find?_eq_some first
      have icmp : layer.protocol = .icmp := by simpa using List.find?_some first
      refine ⟨layer, member, icmp, ?_⟩
      simpa [reportsUnreachable_iff _ (read layer member icmp)] using h
    next => cases h

/-- A packet with a DNS layer has the service too, by the port that led to the layer. -/
theorem dns_mem_services {layer : Layer}
    (member : layer ∈ Layer.ofFrame Protocol.all linkType frame) (dns : layer.protocol = .dns) :
    "dns" ∈ (Packet.decode Protocol.all linkType frame capture).services := by
  have chain := Layer.ofFrame_chain Protocol.all linkType frame
  rcases chain.carriesDns member dns with here | ⟨below, before, next, leads, carries⟩
  · exact absurd here id
  · have transport : below.protocol = .tcp ∨ below.protocol = .udp := by
      have follows := leads.follows
      generalize below.protocol = p at follows
      cases follows <;> simp_all [Stage.CarriesDns]
    have first : (Packet.decode Protocol.all linkType frame capture).transport? = some below :=
      chain.find?_eq_some Survey.transport_height before (by simpa using transport)
    obtain ⟨data, context, reading⟩ := chain.reading_eq below before
    obtain ⟨source, destination, sport, dport, hints⟩ :=
      Protocol.read_transport transport (reading ▸ leads.complete)
    rw [← reading] at sport dport hints
    have ports : next = .transport source.toNat destination.toNat
        (Packet.ipProtocolOf below.protocol) := by
      have agree := leads.hints.symm.trans hints
      cases next <;> simp_all [Stage.hints, Stage.CarriesDns]
    have found : (Packet.decode Protocol.all linkType frame capture).services
        = Service.namesOf (Packet.ipProtocolOf below.protocol) source.toNat destination.toNat := by
      simp [Packet.services, first, sport, dport, FieldValue.unsigned?, FieldValue.number?]
    rw [found]
    refine mem_namesOf.mpr ⟨⟨"dns", [53], .either⟩, by simp [Service.all], ?_, rfl⟩
    rw [ports] at carries
    have port : ([53].contains source.toNat || [53].contains destination.toNat) = true := by
      simpa [Stage.CarriesDns, Header.dnsPort] using carries
    refine Bool.and_eq_true_iff.mpr ⟨?_, port⟩
    rcases transport with tcp | udp
    · rw [tcp]
      rfl
    · rw [udp]
      rfl

/-- The mask of an entry has exactly the bits that the packet carries. -/
theorem hasBit_ofPacket (i : Nat) :
    (Entry.ofPacket (.decode Protocol.lower linkType frame recorded)).mask.hasBit i = true
      ↔ (Packet.decode Protocol.all linkType frame capture).Carries i := by
  have lower := not_isApplication_of_mem linkType frame
  have told : (Entry.ofPacket (.decode Protocol.lower linkType frame recorded)).mask.hasBit i = true
      ↔ (∃ layer ∈ Layer.ofFrame Protocol.lower linkType frame, Survey.Tells layer i) ∨
        ∃ service ∈ (Packet.decode Protocol.all linkType frame capture).services,
          position? service = some i := by
    rw [← services_ofLayers]
    refine (Mask.hasBit_foldl_insert _ _ _).trans (or_congr_left ?_)
    refine (Survey.hasBit_foldl_add lower _ _).trans ?_
    rw [Mask.hasBit_empty]
    simp
  rw [told]
  constructor
  · rintro (⟨layer, member, named | ⟨icmp, reports, bit⟩⟩ | ⟨service, member, bit⟩)
    · rw [Layer.ofFrame_lower] at member
      exact .inl ⟨layer, (List.mem_filter.mp member).1, named⟩
    · have unreachable := (exists_unreachable_iff linkType frame capture).mp
        ⟨layer, member, icmp, reports⟩
      exact .inr ⟨_, mem_tags.mpr (.inr ⟨unreachable, rfl⟩), bit⟩
    · exact .inr ⟨service, mem_tags.mpr (.inl member), bit⟩
  · rintro (⟨layer, member, named⟩ | ⟨tag, member, bit⟩)
    -- The entry is made without the applications, so the bit of DNS comes from the ports.
    · by_cases dns : layer.protocol = .dns
      · rw [dns] at named
        exact .inr ⟨"dns", dns_mem_services linkType frame capture member dns, named⟩
      · refine .inl ⟨layer, ?_, .inl named⟩
        rw [Layer.ofFrame_lower]
        refine List.mem_filter.mpr ⟨member, ?_⟩
        revert dns
        cases layer.protocol <;> simp [Protocol.isApplication]
    · rcases mem_tags.mp member with service | ⟨unreachable, rfl⟩
      · exact .inr ⟨tag, service, bit⟩
      · obtain ⟨layer, below, icmp, reports⟩ :=
          (exists_unreachable_iff linkType frame capture).mpr unreachable
        exact .inl ⟨layer, below, .inr ⟨icmp, reports, bit⟩⟩

end Catalog

end PacketQuery
