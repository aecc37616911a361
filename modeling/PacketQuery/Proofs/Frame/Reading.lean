import PacketQuery.Frame.Packet
/-!
What the reading of a single header gives. Its fields are the first of those of its protocol and the
bytes that it gives back are an end of its data. A header below the applications is read to its end
or not at all; read to its end, it has the addresses, ports and facts that the rest of a decoding
relies on.
-/

namespace PacketQuery

namespace Reading

@[simp] theorem isComplete_complete (fields : List (String × FieldValue)) (rest : Bytes)
    (hints : List (Hint × Nat)) : (complete fields rest hints).isComplete = true :=
  rfl

@[simp] theorem isComplete_failed (fault : HeaderFault) (data : Bytes) :
    (failed fault data).isComplete = false :=
  rfl

@[simp] theorem isComplete_broken (fields : List (String × FieldValue))
    (fault : HeaderFault) : (broken fields fault).isComplete = false :=
  rfl

@[simp] theorem field?_failed (fault : HeaderFault) (data : Bytes) (name : String) :
    (failed fault data).field? name = none :=
  rfl

/-- A header that was read to its end passed each of its checks. -/
theorem checked {check : Prop} [Decidable check] {fault : HeaderFault} {data : Bytes}
    {r : Reading} (h : (if check then failed fault data else r).isComplete = true) :
    (if check then failed fault data else r) = r ∧ r.isComplete = true := by
  split at h
  next => simp at h
  next fails => exact ⟨if_neg fails, h⟩

end Reading

/-- The names of the fields that the header has wherever it is read to its end. -/
def Protocol.fixedNames : Protocol → List String
  | arp => ["op"]
  | icmp => ["type", "code", "checksum"]
  | dns => ["id", "qr", "opcode", "rcode", "qdcount", "ancount"]
  | p => p.fieldNames

theorem Protocol.fixedNames_isPrefix (p : Protocol) : p.fixedNames <+: p.fieldNames := by
  cases p <;> decide

namespace Reading

/-- What a header of a protocol can tell of `data`: at its end it has named its fixed fields, maybe
the next ones of its list, and taken a byte at least; where it is malformed it has told nothing, and
only a message may break off behind its fixed fields. -/
inductive Tells (p : Protocol) (data : Bytes) : Reading → Prop
  | complete {fields : List (String × FieldValue)} {n : Nat} {hints : List (Hint × Nat)}
      (fixed : p.fixedNames <+: fields.map (·.1)) (listed : fields.map (·.1) <+: p.fieldNames)
      (some_ : 0 < n) (inside : n ≤ data.length) :
      Tells p data (.complete fields (data.drop n) hints)
  | failed (fault : HeaderFault) : Tells p data (.failed fault data)
  | broken {fields : List (String × FieldValue)} (fault : HeaderFault)
      (application : p.isApplication = true) (fixed : fields.map (·.1) = p.fixedNames) :
      Tells p data (.broken fields fault)

/-- The reading gives back an end of the data, and not all of it if it was read to its end. -/
structure Consumes (data : Bytes) (r : Reading) : Prop where
  suffix : r.rest <:+ data
  rest_lt : r.isComplete = true → r.rest.length < data.length

/-- The reading is whole, or nothing of `data` was read. -/
def WholeOrFailed (data : Bytes) (r : Reading) : Prop :=
  r.isComplete = true ∨ ∃ fault, r = failed fault data

namespace Tells

variable {p : Protocol} {data : Bytes} {r : Reading}

theorem check {check : Prop} [Decidable check] {fault : HeaderFault}
    (passed : ¬ check → Tells p data r) : Tells p data (if check then .failed fault data else r) := by
  split
  next => exact failed fault
  next fails => exact passed fails

/-- A message takes all bytes. -/
theorem all {fields : List (String × FieldValue)} {hints : List (Hint × Nat)}
    (fixed : p.fixedNames <+: fields.map (·.1)) (listed : fields.map (·.1) <+: p.fieldNames)
    (some_ : 0 < data.length) : Tells p data (.complete fields [] hints) := by
  rw [← List.drop_length (l := data)]
  exact complete fixed listed some_ (Nat.le_refl _)

theorem names_isPrefix (h : Tells p data r) : r.fields.map (·.1) <+: p.fieldNames := by
  cases h with
  | complete _ listed => exact listed
  | failed => exact List.nil_prefix
  | broken _ _ fixed => exact fixed ▸ p.fixedNames_isPrefix

theorem fixedNames_isPrefix (h : Tells p data r) (whole : r.isComplete = true) :
    p.fixedNames <+: r.fields.map (·.1) := by
  cases h with
  | complete fixed => exact fixed
  | failed | broken => cases whole

theorem consumes (h : Tells p data r) : r.Consumes data := by
  cases h with
  | @complete _ n _ _ _ some_ inside =>
    have rest : (data.drop n).length = data.length - n := List.length_drop
    refine ⟨List.drop_suffix n data, fun _ => ?_⟩
    change (data.drop n).length < _
    omega
  | failed => exact ⟨List.suffix_rfl, fun whole => Bool.noConfusion whole⟩
  | broken => exact ⟨List.nil_suffix, fun whole => Bool.noConfusion whole⟩

theorem wholeOrFailed (h : Tells p data r) (lower : p.isApplication = false) :
    r.WholeOrFailed data := by
  cases h with
  | complete => exact .inl rfl
  | failed fault => exact .inr ⟨fault, rfl⟩
  | broken _ application =>
    rw [lower] at application
    cases application

/-- The header has no other fields than those of its protocol. -/
theorem mem_fieldNames (h : Tells p data r) {name : String} {value : FieldValue}
    (found : r.field? name = some value) : name ∈ p.fieldNames := by
  obtain ⟨⟨other, _⟩, first, _⟩ := Option.map_eq_some_iff.mp found
  have same : other = name := by simpa using List.find?_some first
  rw [← same]
  exact h.names_isPrefix.subset (List.mem_map_of_mem (List.mem_of_find?_eq_some first))

end Tells

end Reading

namespace Header

theorem tells_arp (data : Bytes) : (arp data).Tells .arp data := by
  refine .check fun long => ?_
  dsimp only
  split
  next => exact .complete ⟨["sha", "spa", "tha", "tpa"], rfl⟩ List.prefix_rfl (by omega) (by omega)
  next => exact .complete List.prefix_rfl ⟨["sha", "spa", "tha", "tpa"], rfl⟩ (by omega) (by omega)

theorem tells_icmp (data : Bytes) : (icmp data).Tells .icmp data := by
  refine .check fun long => ?_
  dsimp only
  split
  next => exact .complete ⟨["id", "seq"], rfl⟩ List.prefix_rfl (by omega) (by omega)
  next => exact .complete List.prefix_rfl ⟨["id", "seq"], rfl⟩ (by omega) (by omega)

/-- A question that is read has a name, and a type unless it ends before. -/
theorem dnsQuestion_names {question : Bytes} {fields : List (String × FieldValue)}
    (read : dnsQuestion question = .ok fields) : fields.map (·.1) <+: ["qname", "qtype"] := by
  unfold dnsQuestion at read
  split at read
  next => cases read
  next =>
    cases read
    split
    next => exact List.prefix_rfl
    next => exact ⟨["qtype"], rfl⟩

/-- The message may stand behind other bytes of the data. -/
theorem tells_dnsMessage {message data : Bytes} (inside : message.length ≤ data.length) :
    (dnsMessage message data).Tells .dns data := by
  refine .check fun long => ?_
  have some_ : 0 < data.length := by omega
  have fixed : (dnsFixedFields message).map (·.1) = Protocol.dns.fixedNames := rfl
  have list : Protocol.dns.fieldNames = Protocol.dns.fixedNames ++ ["qname", "qtype"] := rfl
  dsimp only
  split
  next => exact .all List.prefix_rfl (list ▸ List.prefix_append _ _) some_
  next =>
    split
    next fault _ => exact .broken fault rfl fixed
    next question read =>
      refine .all ?_ ?_ some_
      · rw [List.map_append, fixed]
        exact List.prefix_append _ _
      · rw [List.map_append, fixed, list, List.prefix_append_right_inj]
        exact dnsQuestion_names read

end Header

namespace Protocol

variable {p : Protocol} {data : Bytes} {context : Context}

/-- Every protocol reads its header in one of these ways, whatever is known before it. -/
theorem tells_read (p : Protocol) (data : Bytes) (context : Context) :
    (p.read data context).Tells p data := by
  cases p with
  | ethernet | vlan | udp =>
    exact .check fun long => .complete List.prefix_rfl List.prefix_rfl (by omega) (by omega)
  | arp => exact Header.tells_arp data
  | icmp => exact Header.tells_icmp data
  | ipv4 =>
    exact .check fun _ => .check fun _ => .check fun words => .check fun long =>
      .complete List.prefix_rfl List.prefix_rfl (by omega) (by omega)
  | ipv6 =>
    exact .check fun long => .check fun _ =>
      .complete List.prefix_rfl List.prefix_rfl (by omega) (by omega)
  | tcp =>
    exact .check fun _ => .check fun words => .check fun long =>
      .complete List.prefix_rfl List.prefix_rfl (by omega) (by omega)
  | dns =>
    simp only [read, Header.dns]
    split
    next => exact .check fun _ => Header.tells_dnsMessage (List.drop_suffix 2 data).length_le
    next => exact Header.tells_dnsMessage (Nat.le_refl _)

/-- A header below the applications is read to its end or not at all. -/
theorem read_wholeOrFailed (lower : p.isApplication = false) :
    (p.read data context).WholeOrFailed data :=
  (p.tells_read data context).wholeOrFailed lower

/-- The ports are two fields of a transport header and two facts for what it carries. -/
theorem read_transport (transport : p = tcp ∨ p = udp)
    (h : (p.read data context).isComplete = true) :
    ∃ source destination : UInt16,
      (p.read data context).field? "sport" = some (.u16 source) ∧
      (p.read data context).field? "dport" = some (.u16 destination) ∧
      (p.read data context).hints = [(.sourcePort, source.toNat),
        (.destinationPort, destination.toNat), (.transport, Packet.ipProtocolOf p)] := by
  refine ⟨Bytes.word16 data 0, Bytes.word16 data 2, ?_⟩
  rcases transport with rfl | rfl
  · simp only [read, Header.tcp] at h ⊢
    obtain ⟨whole, h⟩ := Reading.checked h
    obtain ⟨offset, h⟩ := Reading.checked h
    obtain ⟨options, h⟩ := Reading.checked h
    rw [whole, offset, options]
    exact ⟨rfl, rfl, rfl⟩
  · simp only [read, Header.udp] at h ⊢
    obtain ⟨whole, h⟩ := Reading.checked h
    rw [whole]
    exact ⟨rfl, rfl, rfl⟩

end Protocol

namespace Header

theorem ofIpv4Bytes_slice {data : Bytes} {start : Nat} (h : start + 4 ≤ data.length) :
    ∃ address, FieldValue.ofIpv4Bytes (Bytes.slice data start 4) = .ipv4 address := by
  have room : 4 ≤ (Bytes.slice data start 4).length := by
    rw [Bytes.length_slice]
    omega
  exact ⟨_, if_pos room⟩

theorem ipv4_addresses {data : Bytes} (h : (ipv4 data).isComplete = true) :
    ∃ source destination, (ipv4 data).field? "src" = some (.ipv4 source) ∧
      (ipv4 data).field? "dst" = some (.ipv4 destination) := by
  have size : 20 ≤ data.length := by
    refine Nat.le_of_not_lt fun short => ?_
    simp [ipv4, short] at h
  obtain ⟨source, sourceEq⟩ := ofIpv4Bytes_slice (show 12 + 4 ≤ data.length by omega)
  obtain ⟨destination, destinationEq⟩ := ofIpv4Bytes_slice (show 16 + 4 ≤ data.length by omega)
  refine ⟨source, destination, ?_⟩
  simp only [ipv4] at h ⊢
  obtain ⟨whole, h⟩ := Reading.checked h
  obtain ⟨version, h⟩ := Reading.checked h
  obtain ⟨words, h⟩ := Reading.checked h
  obtain ⟨options, h⟩ := Reading.checked h
  rw [whole, version, words, options, sourceEq, destinationEq]
  exact ⟨rfl, rfl⟩

theorem icmp_type (data : Bytes) :
    (icmp data).field? "type" = none ∨ ∃ kind, (icmp data).field? "type" = some (.u8 kind) := by
  unfold icmp
  split
  next => exact .inl rfl
  next => exact .inr ⟨Bytes.byte data 0, rfl⟩

theorem dnsMessage_hints {message data : Bytes} : (dnsMessage message data).hints = [] := by
  unfold dnsMessage
  split
  next => rfl
  next =>
    split
    next => rfl
    next => split <;> rfl

theorem dns_hints {data : Bytes} {context : Context} : (dns data context).hints = [] := by
  unfold dns
  split
  next =>
    split
    next => rfl
    next => exact dnsMessage_hints
  next => exact dnsMessage_hints

end Header

end PacketQuery
