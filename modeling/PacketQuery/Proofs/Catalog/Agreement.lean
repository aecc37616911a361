import PacketQuery.Proofs.Catalog.EntryMask
/-!
The entry of a packet agrees with the packet: its mask answers for every protocol that the
language can name, and its addresses, ports and length are those of the whole decoding.
-/

namespace PacketQuery.Catalog

open PacketQuery.Language (isProtocolName)

variable (linkType : UInt16) (frame : Bytes) (capture recorded : Capture)

/-- A dotted name reads a field of the first layer of its protocol. -/
theorem field?_eq_bind (p : Packet) {name layer field : String} {q : Protocol}
    (parts : Text.cut '.' name = some (layer, field)) (proper : Text.same "frame" layer = false)
    (named : ∀ r : Protocol, r.isNamed layer = (r == q)) :
    p.field? name = (p.layers.find? (·.protocol == q)).bind (·.reading.field? field) := by
  simp only [Packet.field?, parts, proper, Packet.layer?, Layer.isNamed, named,
    Bool.false_eq_true, if_false]

theorem isNamed_ip (r : Protocol) : r.isNamed "ip" = (r == .ipv4) := by
  cases r <;> decide

theorem isNamed_tcp (r : Protocol) : r.isNamed "tcp" = (r == .tcp) := by
  cases r <;> decide

theorem isNamed_udp (r : Protocol) : r.isNamed "udp" = (r == .udp) := by
  cases r <;> decide

theorem addresses_ofLayers :
    let survey := Survey.ofLayers (Layer.ofFrame Protocol.lower linkType frame)
    let p := Packet.decode Protocol.all linkType frame capture
    (p.field? "ip.src").getD (.ipv4 0) = .ipv4 survey.source ∧
      (p.field? "ip.dst").getD (.ipv4 0) = .ipv4 survey.destination := by
  intro survey p
  have chain := Layer.ofFrame_chain Protocol.lower linkType frame
  rw [field?_eq_bind p (show Text.cut '.' "ip.src" = some ("ip", "src") by decide)
      (by decide) isNamed_ip,
    field?_eq_bind p (show Text.cut '.' "ip.dst" = some ("ip", "dst") by decide)
      (by decide) isNamed_ip,
    find?_decode linkType frame capture rfl, Survey.source_ofLayers chain,
    Survey.destination_ofLayers chain]
  cases found : (Layer.ofFrame Protocol.lower linkType frame).find? (·.protocol == .ipv4) with
  | none => exact ⟨rfl, rfl⟩
  | some layer =>
    have ipv4 : layer.protocol = .ipv4 := by simpa using List.find?_some found
    rcases chain.ipv4_fields (List.mem_of_find?_eq_some found) ipv4 with
      ⟨source, destination, src, dst⟩ | missing
    · simp [Survey.addressIn, src, dst, FieldValue.ipv4?]
    · simp [Survey.addressIn, missing]

/-- Of the two transports a frame has one at most, which is the one found. -/
theorem transport_find? {stage : Stage} {start : Nat} {layers : List Layer}
    (chain : Chain linkType stage start layers) :
    let found := layers.find? fun layer => layer.protocol == .tcp || layer.protocol == .udp
    (layers.find? (·.protocol == .tcp) = found ∧ layers.find? (·.protocol == .udp) = none) ∨
      (layers.find? (·.protocol == .tcp) = none ∧ layers.find? (·.protocol == .udp) = found) := by
  intro found
  have first : ∀ layer ∈ layers, layer.protocol = .tcp ∨ layer.protocol = .udp →
      found = some layer := by
    intro layer member transport
    exact chain.find?_eq_some Survey.transport_height member (by simpa using transport)
  by_cases tcp : ∃ layer ∈ layers, layer.protocol = .tcp
  · obtain ⟨layer, member, tcp⟩ := tcp
    refine .inl ⟨?_, List.find?_eq_none.mpr ?_⟩
    · rw [first layer member (.inl tcp)]
      have place : ∀ p : Protocol, (p == .tcp) = true → p ≠ .vlan ∧ p.height = 3 := by
        simp [Protocol.height]
      exact chain.find?_eq_some place member (beq_iff_eq.mpr tcp)
    · intro other also udp
      have same := (first layer member (.inl tcp)).symm.trans
        (first other also (.inr (beq_iff_eq.mp udp)))
      cases Option.some.inj same
      rw [tcp] at udp
      cases udp
  · refine .inr ⟨List.find?_eq_none.mpr ?_, ?_⟩
    · intro layer member matched
      exact tcp ⟨layer, member, beq_iff_eq.mp matched⟩
    · refine List.find?_congr fun layer member => ?_
      have other : ¬ layer.protocol = .tcp := fun tcp' => tcp ⟨layer, member, tcp'⟩
      simp [other]

/-- The port of either transport is the port of the one there is. -/
theorem port_ofLayers {word : String} (listed : word = "sport" ∨ word = "dport") :
    let layers := Layer.ofFrame Protocol.lower linkType frame
    (((layers.find? (·.protocol == .tcp)).bind (·.reading.field? word)).or
        ((layers.find? (·.protocol == .udp)).bind (·.reading.field? word))).getD (.u16 0)
      = .u16 (((layers.find? fun layer => layer.protocol == .tcp || layer.protocol == .udp).map
          (Survey.portIn ·.reading word)).getD 0) := by
  intro layers
  have chain : Chain linkType .first 0 layers := Layer.ofFrame_chain Protocol.lower linkType frame
  have port : ((layers.find? fun layer => layer.protocol == .tcp || layer.protocol == .udp).bind
        (·.reading.field? word)).getD (.u16 0)
      = .u16 (((layers.find? fun layer => layer.protocol == .tcp || layer.protocol == .udp).map
          (Survey.portIn ·.reading word)).getD 0) := by
    cases found : layers.find? fun layer => layer.protocol == .tcp || layer.protocol == .udp with
    | none => rfl
    | some layer =>
      rcases chain.port_fields found with ⟨source, destination, sport, dport⟩ | missing
      · rcases listed with rfl | rfl
        · simp [Survey.portIn, sport, FieldValue.unsigned?, FieldValue.number?]
        · simp [Survey.portIn, dport, FieldValue.unsigned?, FieldValue.number?]
      · simp [Survey.portIn, missing]
  rcases transport_find? linkType chain with ⟨here, other⟩ | ⟨other, here⟩
  · rw [here, other, Option.bind_none, Option.or_none, port]
  · rw [here, other, Option.bind_none, Option.none_or, port]

theorem ports_ofLayers :
    let survey := Survey.ofLayers (Layer.ofFrame Protocol.lower linkType frame)
    let p := Packet.decode Protocol.all linkType frame capture
    ((p.field? "tcp.sport").or (p.field? "udp.sport")).getD (.u16 0) = .u16 survey.sourcePort ∧
      ((p.field? "tcp.dport").or (p.field? "udp.dport")).getD (.u16 0)
        = .u16 survey.destinationPort := by
  intro survey p
  have chain := Layer.ofFrame_chain Protocol.lower linkType frame
  rw [Survey.sourcePort_ofLayers chain, Survey.destinationPort_ofLayers chain,
    field?_eq_bind p (show Text.cut '.' "tcp.sport" = some ("tcp", "sport") by decide)
      (by decide) isNamed_tcp,
    field?_eq_bind p (show Text.cut '.' "udp.sport" = some ("udp", "sport") by decide)
      (by decide) isNamed_udp,
    field?_eq_bind p (show Text.cut '.' "tcp.dport" = some ("tcp", "dport") by decide)
      (by decide) isNamed_tcp,
    field?_eq_bind p (show Text.cut '.' "udp.dport" = some ("udp", "dport") by decide)
      (by decide) isNamed_udp]
  have tcp : Protocol.tcp.isApplication = false := rfl
  have udp : Protocol.udp.isApplication = false := rfl
  rw [find?_decode linkType frame capture tcp, find?_decode linkType frame capture udp]
  exact ⟨port_ofLayers linkType frame (.inl rfl), port_ofLayers linkType frame (.inr rfl)⟩

theorem transports_ofLayers :
    (Packet.decode Protocol.all linkType frame capture).layer? "tcp" = none ∨
      (Packet.decode Protocol.all linkType frame capture).layer? "udp" = none := by
  simp only [Packet.layer?, Layer.isNamed, isNamed_tcp, isNamed_udp]
  rw [find?_decode linkType frame capture rfl, find?_decode linkType frame capture rfl]
  rcases transport_find? linkType (Layer.ofFrame_chain Protocol.lower linkType frame) with
    ⟨_, udp⟩ | ⟨tcp, _⟩
  · exact .inr udp
  · exact .inl tcp

theorem headerLength_ofLayers :
    (Survey.ofLayers (Layer.ofFrame Protocol.lower linkType frame)).headerLength.toNat
      = min (Packet.decode Protocol.all linkType frame capture).payloadStart 65535 := by
  have chain := Layer.ofFrame_chain Protocol.lower linkType frame
  rw [Survey.ofLayers, Survey.headerLength_foldl_add chain (not_isApplication_of_mem linkType frame)
    {} rfl, Packet.payloadStart, Packet.decode, ← Layer.ofFrame_lower]
  cases (Layer.ofFrame Protocol.lower linkType frame).getLast? <;> rfl

/-- The entry tells of a packet what the packet tells itself. -/
structure Entry.AgreesWith (e : Entry) (p : Packet) : Prop where
  mask : ∀ word, isProtocolName word = true → e.mask.contains word = p.hasLayer word
  source : (p.field? "ip.src").getD (.ipv4 0) = .ipv4 e.source
  destination : (p.field? "ip.dst").getD (.ipv4 0) = .ipv4 e.destination
  /-- One of the two port fields below is missing at least. -/
  transport : p.layer? "tcp" = none ∨ p.layer? "udp" = none
  sourcePort : ((p.field? "tcp.sport").or (p.field? "udp.sport")).getD (.u16 0) = .u16 e.sourcePort
  destinationPort :
    ((p.field? "tcp.dport").or (p.field? "udp.dport")).getD (.u16 0) = .u16 e.destinationPort
  headerLength : e.headerLength.toNat = min p.payloadStart 65535

/-- An entry made without the applications agrees with the whole decoding of its frame. -/
theorem Entry.ofPacket_agreesWith :
    (Entry.ofPacket (.decode Protocol.lower linkType frame recorded)).AgreesWith
      (.decode Protocol.all linkType frame capture) where
  mask word known := by
    apply Bool.eq_iff_iff.mpr
    rw [Mask.contains_iff, hasLayer_iff known]
    simp only [hasBit_ofPacket linkType frame capture recorded]
  source := (addresses_ofLayers linkType frame capture).1
  destination := (addresses_ofLayers linkType frame capture).2
  transport := transports_ofLayers linkType frame capture
  sourcePort := (ports_ofLayers linkType frame capture).1
  destinationPort := (ports_ofLayers linkType frame capture).2
  headerLength := headerLength_ofLayers linkType frame capture

end PacketQuery.Catalog
