import PacketQuery.Proofs.Frame.Contents
import PacketQuery.Proofs.Frame.DomainName
/-!
Padding behind an IPv4 datagram. Every header is handed all bytes that are left of the frame, so
padding completes what the end of the datagram cuts off: an IPv4, TCP, UDP or ICMP header, a DNS
message or its first question. Where nothing is cut off, padding changes no field and no name; where
something is, some padding adds a field.
-/

namespace PacketQuery

namespace Header

/-! ### What ends inside the datagram -/

/-- The name at the head of `data` and the two bytes of type behind it are there, or the name is
malformed whatever follows. `room` is the number of labels that may still come. -/
def wholeName : (room : Nat) → Bytes → Bool
  | room, data =>
    match data with
    | [] => false
    | b :: rest =>
      let length := b.toNat
      if length = 0 then 2 ≤ rest.length
      else if 0xC0 ≤ length then 3 ≤ rest.length
      else if 63 < length then true
      else
        match room with
        | 0 => true
        | room + 1 => length ≤ rest.length && wholeName room (rest.drop length)

/-- The fixed header of a DNS message and its first question, if it has one, are there. -/
def wholeMessage (message : Bytes) : Bool :=
  12 ≤ message.length && (Bytes.word16 message 4 = 0 || wholeName maxLabels (message.drop 12))

/-- One of the ports at the head of `data` is that of DNS. -/
def toDns (data : Bytes) : Bool :=
  (Bytes.word16 data 0).toNat = dnsPort || (Bytes.word16 data 2).toNat = dnsPort

/-- A TCP header is there or malformed, and what it carries to the port of DNS is whole. -/
def wholeTcp (data : Bytes) : Bool :=
  13 ≤ data.length && (tcpLength data < 20 || tcpLength data ≤ data.length
    && (!toDns data || wholeMessage (data.drop (tcpLength data + 2))))

/-- A UDP header is there, and what it carries to the port of DNS is whole. -/
def wholeUdp (data : Bytes) : Bool :=
  8 ≤ data.length && (!toDns data || wholeMessage (data.drop 8))

/-- What an IP header with the number of a protocol carries is whole. -/
def wholeBody (protocol : Nat) (data : Bytes) : Bool :=
  if protocol = IpProtocol.tcp then wholeTcp data
  else if protocol = IpProtocol.udp then wholeUdp data
  else if protocol = IpProtocol.icmp then 8 ≤ data.length
  else true

/-- An IPv4 header is there or malformed, and what it carries is whole. -/
def wholeDatagram (data : Bytes) : Bool :=
  (Bytes.byte data 0).toNat / 16 ≠ 4 || ipv4Length data < 20 || ipv4Length data ≤ data.length
    && wholeBody (Bytes.byte data 9).toNat (data.drop (ipv4Length data))

/-! ### Names -/

/-- Of a whole name the same is read with more bytes behind it. -/
theorem labels_append {room : Nat} {data : Bytes} (whole : wholeName room data = true)
    (name : String) (used : Nat) (after : Bytes) :
    (∃ fault fault', labels name used room data = .error fault ∧
      labels name used room (data ++ after) = .error fault') ∨
    ∃ text stop, labels name used room data = .ok (text, stop) ∧
      labels name used room (data ++ after) = .ok (text, stop) ∧
      stop + 2 ≤ used + data.length := by
  -- The induction follows the labels; the text and the count so far differ from one to the next.
  fun_induction wholeName room data generalizing name used with
  | case1 => cases whole
  | case2 room b rest length zero =>
    have room : 2 ≤ rest.length := of_decide_eq_true whole
    refine .inr ⟨name, used + 1, labels_end zero, labels_end zero, ?_⟩
    rw [List.length_cons]
    omega
  | case3 room b rest length some_ high =>
    have room : 3 ≤ rest.length := of_decide_eq_true whole
    refine .inr ⟨name, used + 2, labels_pointer high, labels_pointer high, ?_⟩
    rw [List.length_cons]
    omega
  | case4 room b rest length some_ low long =>
    exact .inl ⟨_, _, labels_invalid low long, labels_invalid low long⟩
  | case5 b rest length some_ low short =>
    obtain ⟨fault, read⟩ := labels_full name used rest some_ short
    obtain ⟨fault', read'⟩ := labels_full name used (rest ++ after) some_ short
    exact .inl ⟨fault, fault', read, read'⟩
  | case6 b rest length some_ low short room ih =>
    obtain ⟨fits, whole⟩ := Bool.and_eq_true_iff.mp whole
    have fits : length ≤ rest.length := of_decide_eq_true fits
    have longer : (rest ++ after).length = rest.length + after.length := List.length_append
    rw [List.cons_append, labels_cons some_ short (by omega), labels_cons some_ short (by omega),
      List.take_append_of_le_length fits, List.drop_append_of_le_length fits]
    have behind : (rest.drop length).length = rest.length - length := List.length_drop
    rcases ih whole _ (used + 1 + length) with failed | ⟨text, stop, read, read', ends⟩
    · exact .inl failed
    · refine .inr ⟨text, stop, read, read', ?_⟩
      rw [List.length_cons]
      omega

/-- Padding that completes names, messages and the headers of UDP and ICMP. -/
def zeros : Bytes := List.replicate 80 0

/-- Padding that completes the headers of IPv4 and TCP, where a byte announces five words. -/
def fives : Bytes := List.replicate 80 0x50

theorem length_append_zeros (bs : Bytes) : (bs ++ zeros).length = bs.length + 80 := by
  rw [List.length_append, zeros, List.length_replicate]

theorem length_append_fives (bs : Bytes) : (bs ++ fives).length = bs.length + 80 := by
  rw [List.length_append, fives, List.length_replicate]

/-- A name that is cut off, or its type, is completed by zero bytes. -/
theorem labels_zeros {room : Nat} {data : Bytes} (cut : wholeName room data = false)
    (name : String) (used : Nat) :
    ∃ text stop, labels name used room (data ++ zeros) = .ok (text, stop) ∧
      stop + 2 ≤ used + (data ++ zeros).length ∧
      ((∃ fault, labels name used room data = .error fault) ∨
        labels name used room data = .ok (text, stop) ∧ used + data.length < stop + 2) := by
  fun_induction wholeName room data generalizing name used with
  | case1 room =>
    refine ⟨name, used + 1, labels_end (b := 0) rfl, ?_, .inl ⟨.nameEnds, ?_⟩⟩
    · rw [length_append_zeros]
      omega
    · cases room <;> rfl
  | case2 room b rest length zero =>
    have missing : ¬ 2 ≤ rest.length := of_decide_eq_false cut
    refine ⟨name, used + 1, labels_end zero, ?_, .inr ⟨labels_end zero, ?_⟩⟩
    · rw [length_append_zeros, List.length_cons]
      omega
    · rw [List.length_cons]
      omega
  | case3 room b rest length some_ high =>
    have missing : ¬ 3 ≤ rest.length := of_decide_eq_false cut
    refine ⟨name, used + 2, labels_pointer high, ?_, .inr ⟨labels_pointer high, ?_⟩⟩
    · rw [length_append_zeros, List.length_cons]
      omega
    · rw [List.length_cons]
      omega
  | case4 => cases cut
  | case5 => cases cut
  | case6 b rest length some_ low short room ih =>
    have fits : ¬ (rest ++ zeros).length < length := by
      rw [length_append_zeros]
      omega
    rw [length_append_zeros, List.cons_append, labels_cons some_ short fits, List.length_cons]
    by_cases inside : length ≤ rest.length
    · have cut : wholeName room (rest.drop length) = false := by
        simpa [inside] using cut
      have behind : (rest.drop length).length = rest.length - length := List.length_drop
      rw [labels_cons some_ short (by omega), List.take_append_of_le_length inside,
        List.drop_append_of_le_length inside]
      obtain ⟨text, stop, read, ends, before⟩ := ih cut _ (used + 1 + length)
      rw [length_append_zeros] at ends
      exact ⟨text, stop, read, by omega, before.imp id fun whole => ⟨whole.1, by omega⟩⟩
    · -- The label takes fewer bytes than there are zeros, and the next zero ends the name.
      have behind : (rest ++ zeros).drop length
          = 0 :: List.replicate (79 - (length - rest.length)) 0 := by
        rw [List.drop_append, List.drop_eq_nil_of_le (by omega), List.nil_append, zeros,
          List.drop_replicate, ← List.replicate_succ]
        congr 1
        omega
      rw [behind]
      exact ⟨_, _, labels_end rfl, by omega, .inl ⟨_, labels_cut some_ short (by omega)⟩⟩

/-! ### Messages -/

theorem dnsQuestion_append {question : Bytes} (whole : wholeName maxLabels question = true)
    (after : Bytes) :
    (∃ fault fault', dnsQuestion question = .error fault ∧
      dnsQuestion (question ++ after) = .error fault') ∨
    dnsQuestion (question ++ after) = dnsQuestion question := by
  unfold dnsQuestion domainName
  rcases labels_append whole "" 0 after with
    ⟨fault, fault', read, read'⟩ | ⟨text, stop, read, read', ends⟩
  · rw [read, read']
    exact .inl ⟨fault, fault', rfl, rfl⟩
  · have inside : stop + 2 ≤ question.length := by omega
    have inside' : stop + 2 ≤ (question ++ after).length := by
      rw [List.length_append]
      omega
    rw [read, read']
    simp only [inside, inside', if_true, Bytes.word16_append inside, or_true]

theorem dnsFixedFields_append {message : Bytes} (long : 12 ≤ message.length) (after : Bytes) :
    dnsFixedFields (message ++ after) = dnsFixedFields message := by
  simp (disch := omega) only [dnsFixedFields, Bytes.word16_append]

/-- A whole message has the same fields with more bytes behind it. -/
theorem fields_dnsMessage_append {message : Bytes} (whole : wholeMessage message = true)
    (data data' after : Bytes) :
    (dnsMessage (message ++ after) data').fields = (dnsMessage message data).fields := by
  obtain ⟨long, question⟩ := Bool.and_eq_true_iff.mp whole
  have long : 12 ≤ message.length := of_decide_eq_true long
  have longer : ¬ (message ++ after).length < 12 := by
    rw [List.length_append]
    omega
  rw [dnsMessage, dnsMessage, if_neg longer, if_neg long.not_gt, dnsFixedFields_append long,
    Bytes.word16_append (by omega), List.drop_append_of_le_length long]
  dsimp only
  split
  next => rfl
  next asked =>
    have named : wholeName maxLabels (message.drop 12) = true := by
      simpa [asked] using question
    rcases dnsQuestion_append named after with ⟨fault, fault', read, read'⟩ | same
    · rw [read, read']
      rfl
    · rw [same]

theorem id_dnsMessage {message : Bytes} (long : 12 ≤ message.length) (data : Bytes) :
    (fieldOf? "id" (dnsMessage message data).fields).isSome := by
  rw [dnsMessage, if_neg long.not_gt]
  dsimp only
  split
  next => rfl
  next => split <;> rfl

/-- A message that is cut off gains a field with zero bytes behind it. -/
theorem dnsMessage_zeros {message : Bytes} (cut : wholeMessage message = false)
    (data data' : Bytes) :
    ∃ name, fieldOf? name (dnsMessage message data).fields = none ∧
      (fieldOf? name (dnsMessage (message ++ zeros) data').fields).isSome := by
  have longer := length_append_zeros message
  by_cases short : message.length < 12
  · refine ⟨"id", ?_, id_dnsMessage (by omega) data'⟩
    rw [dnsMessage, if_pos short]
    rfl
  · have long : 12 ≤ message.length := Nat.le_of_not_lt short
    obtain ⟨asked, named⟩ : Bytes.word16 message 4 ≠ 0 ∧
        wholeName maxLabels (message.drop 12) = false := by
      simpa [wholeMessage, long] using cut
    obtain ⟨text, stop, read', ends, before⟩ := labels_zeros named "" 0
    rw [Nat.zero_add] at ends
    refine ⟨"qtype", ?_, ?_⟩
    · rw [dnsMessage, if_neg short, dnsQuestion, domainName]
      simp only [asked, if_false]
      rcases before with ⟨fault, read⟩ | ⟨read, past⟩
      · rw [read]
        rfl
      · have missing : ¬ stop + 2 ≤ (message.drop 12).length := by omega
        rw [read]
        simp only [missing, if_false]
        rfl
    · rw [dnsMessage, if_neg (by omega), Bytes.word16_append (by omega),
        List.drop_append_of_le_length long, dnsQuestion, domainName, read']
      simp only [asked, ends, if_true, if_false]
      rfl

/-- How many bytes come before a message. -/
def dnsPrefix (context : Context) : Nat :=
  if context.hint? .transport = some IpProtocol.tcp then 2 else 0

variable {context : Context} {data : Bytes}

theorem dns_eq : dns data context = if data.length < dnsPrefix context then
    .failed .dnsLength data else dnsMessage (data.drop (dnsPrefix context)) data := by
  rw [dns, dnsPrefix]
  split
  next => rfl
  next => simp

theorem fields_dns_append (whole : wholeMessage (data.drop (dnsPrefix context)) = true)
    (after : Bytes) : (dns (data ++ after) context).fields = (dns data context).fields := by
  obtain ⟨long, _⟩ := Bool.and_eq_true_iff.mp whole
  have long : 12 ≤ (data.drop (dnsPrefix context)).length := of_decide_eq_true long
  rw [List.length_drop] at long
  have longer : (data ++ after).length = data.length + after.length := List.length_append
  rw [dns_eq, dns_eq, if_neg (by omega), if_neg (by omega),
    List.drop_append_of_le_length (by omega)]
  exact fields_dnsMessage_append whole _ _ after

theorem dns_zeros (cut : wholeMessage (data.drop (dnsPrefix context)) = false) :
    ∃ name, fieldOf? name (dns data context).fields = none ∧
      (fieldOf? name (dns (data ++ zeros) context).fields).isSome := by
  have small : dnsPrefix context ≤ 2 := by
    unfold dnsPrefix
    split <;> omega
  have longer := length_append_zeros data
  rw [dns_eq, dns_eq, if_neg (by omega : ¬ (data ++ zeros).length < _)]
  split
  next short =>
    refine ⟨"id", rfl, id_dnsMessage ?_ _⟩
    rw [List.length_drop]
    omega
  next fits =>
    rw [List.drop_append_of_le_length (by omega)]
    exact dnsMessage_zeros cut _ _

/-! ### Headers that are read to their end -/

theorem ipv4_read (complete : (ipv4 data).isComplete = true) :
    (ipv4 data).rest = data.drop (ipv4Length data) ∧
      (ipv4 data).hints = (Stage.network (Bytes.byte data 9).toNat 4
        ((Bytes.word16 data 2).toNat - ipv4Length data)).hints := by
  obtain ⟨version, words, length⟩ := ipv4_isComplete.mp complete
  unfold ipv4Length at words length
  simp (disch := omega) only [ipv4, if_neg]
  exact ⟨rfl, rfl⟩

theorem ipv4_version (complete : (ipv4 data).isComplete = true) :
    ((ipv4 data).field? "version").isSome := by
  obtain ⟨version, words, length⟩ := ipv4_isComplete.mp complete
  unfold ipv4Length at words length
  simp (disch := omega) only [ipv4, if_neg]
  rfl

theorem tcp_read (complete : (tcp data context).isComplete = true) :
    (tcp data context).rest = data.drop (tcpLength data) ∧
      (tcp data context).hints = (Stage.transport (Bytes.word16 data 0).toNat
        (Bytes.word16 data 2).toNat IpProtocol.tcp).hints := by
  obtain ⟨words, length⟩ := tcp_isComplete.mp complete
  unfold tcpLength at words length
  simp (disch := omega) only [tcp, if_neg]
  exact ⟨rfl, rfl⟩

theorem udp_read (complete : (udp data).isComplete = true) :
    (udp data).rest = data.drop 8 ∧
      (udp data).hints = (Stage.transport (Bytes.word16 data 0).toNat
        (Bytes.word16 data 2).toNat IpProtocol.udp).hints := by
  have length := udp_isComplete.mp complete
  simp (disch := omega) only [udp, if_neg]
  exact ⟨rfl, rfl⟩

end Header

/-! ### What padding adds -/

/-- A field of a header above a place is in the one and not in the other. -/
def Contents.Gains (above : Nat) (c c' : Contents) : Prop :=
  ∃ (p : Protocol) (name : String), above < p.height ∧ c.field? p name = none ∧
    (c'.field? p name).isSome

namespace Contents.Gains

variable {above : Nat} {c c' : Contents}

theorem mono {lower : Nat} (le : lower ≤ above) (h : Gains above c c') : Gains lower c c' := by
  obtain ⟨p, name, high, missing, shown⟩ := h
  exact ⟨p, name, Nat.lt_of_le_of_lt le high, missing, shown⟩

theorem cons {q : Protocol} (low : q.height ≤ above) (fields fields' : List (String × FieldValue))
    (h : Gains above c c') : Gains above ((q, fields) :: c) ((q, fields') :: c') := by
  obtain ⟨p, name, high, missing, shown⟩ := h
  have other : (q == p) = false := by
    rw [beq_eq_false_iff_ne]
    rintro rfl
    omega
  refine ⟨p, name, high, ?_, ?_⟩
  · rwa [field?, List.find?_cons_of_neg (by simpa using other)]
  · rwa [field?, List.find?_cons_of_neg (by simpa using other)]

theorem append {below : Contents} (low : ∀ c ∈ below, c.1.height ≤ above)
    (h : Gains above c c') : Gains above (below ++ c) (below ++ c') := by
  induction below with
  | nil => exact h
  | cons first below ih =>
    obtain ⟨here, low⟩ := List.forall_mem_cons.mp low
    exact (ih low).cons here _ _

end Contents.Gains

namespace Stage

open Header

variable {stage : Stage} {p : Protocol} {data : Bytes}

theorem contents_failed (held : data ≠ [])
    (claimed : stage.claimant = some p)
    (lower : p.isApplication = false)
    (incomplete : (stage.reading p data).isComplete = false) :
    stage.contents data = [(p, [])] := by
  rw [contents_broken held claimed incomplete]
  rcases Protocol.read_wholeOrFailed lower with whole | ⟨fault, failed⟩
  · rw [whole] at incomplete
    cases incomplete
  · rw [reading, failed]
    rfl

/-- A header that stays incomplete shows nothing more. -/
theorem contents_append_of_failed {after : Bytes} (held : data ≠ [])
    (claimed : stage.claimant = some p) (lower : p.isApplication = false)
    (incomplete : (stage.reading p data).isComplete = false)
    (incomplete' : (stage.reading p (data ++ after)).isComplete = false) :
    stage.contents (data ++ after) = stage.contents data := by
  have held' : data ++ after ≠ [] := fun empty => held (List.append_eq_nil_iff.mp empty).1
  rw [contents_failed held claimed lower incomplete,
    contents_failed held' claimed lower incomplete']

/-- What is gained behind a header that is read to its end is gained with it. -/
theorem contents_gains_of_behind {next : Stage} {above : Nat} {after : Bytes} (held : data ≠ [])
    (claimed : stage.claimant = some p) (lower : p.isApplication = false)
    (announced : p = .tcp → (stage.context Protocol.ethernetLink).Announces data)
    (complete : (stage.reading p data).isComplete = true) (follows : Follows p next)
    (hints : (stage.reading p data).hints = next.hints) (low : p.height ≤ above)
    (behind : (next.contents (stage.reading p data).rest).Gains above
      (next.contents ((stage.reading p data).rest ++ after))) :
    (stage.contents data).Gains above (stage.contents (data ++ after)) := by
  rw [contents_append held claimed lower announced complete follows hints,
    contents_read held claimed complete follows hints]
  exact behind.cons low _ _

/-- A header that is completed gains its fields. -/
theorem contents_gains {name : String} {above : Nat} {after : Bytes}
    (claimed : stage.claimant = some p)
    (lower : p.isApplication = false) (high : above < p.height) (some_ : data ++ after ≠ [])
    (incomplete : (stage.reading p data).isComplete = false)
    (complete : (stage.reading p (data ++ after)).isComplete = true)
    (shown : ((stage.reading p (data ++ after)).field? name).isSome) :
    (stage.contents data).Gains above (stage.contents (data ++ after)) := by
  refine ⟨p, name, high, ?_, ?_⟩
  · by_cases held : data = []
    · rw [held]
      rfl
    · rw [contents_failed held claimed lower incomplete, Contents.field?,
        List.find?_cons_of_pos (by simp)]
      rfl
  · obtain ⟨next, follows, hints⟩ := Protocol.read_follows complete
    rw [contents_read some_ claimed complete follows hints, Contents.field?,
      List.find?_cons_of_pos (by simp)]
    exact shown

/-! ### Behind TCP and UDP -/

section Transport

variable {source destination protocol : Nat}

theorem contents_transport (data : Bytes) :
    (transport source destination protocol).contents data
      = if data ≠ [] ∧ (source = dnsPort ∨ destination = dnsPort) then
          [(.dns, (dns data ((transport source destination protocol).context
            Protocol.ethernetLink)).fields)]
        else [] := by
  have claims : Protocol.dns.claims ((transport source destination protocol).context
      Protocol.ethernetLink) = true ↔ _ := claims_transport
  have above : 3 < (transport source destination protocol).height := Nat.lt_succ_self 3
  rw [contents, Layer.ofBytes_above above (Nat.le_refl _)]
  simp only [claims, true_and]
  split <;> rfl

theorem contents_transport_append (whole : source = dnsPort ∨ destination = dnsPort →
      wholeMessage (data.drop (dnsPrefix ((transport source destination protocol).context
        Protocol.ethernetLink))) = true) (after : Bytes) :
    (transport source destination protocol).contents (data ++ after)
      = (transport source destination protocol).contents data := by
  rw [contents_transport, contents_transport]
  by_cases ports : source = dnsPort ∨ destination = dnsPort
  · have held : data ≠ [] := by
      rintro rfl
      have long := of_decide_eq_true (Bool.and_eq_true_iff.mp (whole ports)).1
      simp at long
    have held' : data ++ after ≠ [] := fun empty => held (List.append_eq_nil_iff.mp empty).1
    rw [if_pos ⟨held', ports⟩, if_pos ⟨held, ports⟩, fields_dns_append (whole ports)]
  · rw [if_neg fun both => ports both.2, if_neg fun both => ports both.2]

theorem contents_transport_zeros (ports : source = dnsPort ∨ destination = dnsPort)
    (cut : wholeMessage (data.drop (dnsPrefix ((transport source destination protocol).context
      Protocol.ethernetLink))) = false) :
    ((transport source destination protocol).contents data).Gains 3
      ((transport source destination protocol).contents (data ++ zeros)) := by
  obtain ⟨name, missing, shown⟩ := dns_zeros cut
  have some_ : data ++ zeros ≠ [] :=
    List.ne_nil_of_length_pos (by rw [length_append_zeros]; omega)
  refine ⟨.dns, name, Nat.lt_succ_self 3, ?_, ?_⟩
  · rw [contents_transport]
    split
    next => exact missing
    next => rfl
  · rw [contents_transport, if_pos ⟨some_, ports⟩]
    exact shown

end Transport

/-! ### Behind an IPv4 header -/

section Network

variable {length : Nat}

theorem next?_network (protocol length : Nat) (linkType : UInt16) :
    Protocol.next? Protocol.all ((network protocol 4 length).context linkType)
      = if protocol = IpProtocol.tcp then some .tcp
        else if protocol = IpProtocol.udp then some .udp
        else if protocol = IpProtocol.icmp then some .icmp else none := by
  by_cases tcp : protocol = IpProtocol.tcp
  · subst tcp
    rfl
  · by_cases udp : protocol = IpProtocol.udp
    · subst udp
      rfl
    · by_cases icmp : protocol = IpProtocol.icmp
      · subst icmp
        rfl
      · rw [if_neg tcp, if_neg udp, if_neg icmp]
        apply List.find?_eq_none.mpr
        intro p _ claims
        rcases claims_network.mp claims with ⟨_, h⟩ | ⟨_, h⟩ | ⟨_, h, _⟩
        · exact tcp h
        · exact udp h
        · exact icmp h

theorem announces (protocol : Nat) (announced : length ≤ data.length) :
    ((network protocol 4 length).context Protocol.ethernetLink).Announces data :=
  ⟨length, announced, rfl⟩

theorem toDns_iff : toDns data = true ↔
    (Bytes.word16 data 0).toNat = dnsPort ∨ (Bytes.word16 data 2).toNat = dnsPort := by
  simp [toDns]

theorem contents_tcp_append (announced : length ≤ data.length) (whole : wholeTcp data = true)
    (after : Bytes) :
    (network IpProtocol.tcp 4 length).contents (data ++ after)
      = (network IpProtocol.tcp 4 length).contents data := by
  have claimed : (network IpProtocol.tcp 4 length).claimant = some .tcp := rfl
  obtain ⟨long, whole⟩ := Bool.and_eq_true_iff.mp whole
  have long : 13 ≤ data.length := of_decide_eq_true long
  have held : data ≠ [] := List.ne_nil_of_length_pos (by omega)
  cases read : ((network IpProtocol.tcp 4 length).reading .tcp data).isComplete with
  | true =>
    obtain ⟨rest, hints⟩ := tcp_read read
    obtain ⟨words, fits⟩ := tcp_isComplete.mp read
    have carried : toDns data = true → wholeMessage (data.drop (tcpLength data + 2)) = true := by
      simpa [Nat.not_lt.mpr words, fits, or_iff_not_imp_left] using whole
    refine contents_append_of_behind held claimed rfl (fun _ => announces _ announced) read
      (.tcp _ _) hints (contents_transport_append (fun ports => ?_) after)
    have message := carried (toDns_iff.mpr ports)
    rw [← List.drop_drop, ← rest] at message
    exact message
  | false =>
    have malformed : tcpLength data < 20 := by
      by_contra words
      have fits : tcpLength data ≤ data.length := by
        simp only [words, decide_false, Bool.false_or] at whole
        exact of_decide_eq_true (Bool.and_eq_true_iff.mp whole).1
      exact Bool.false_ne_true
        (read.symm.trans (tcp_isComplete.mpr ⟨Nat.le_of_not_lt words, fits⟩))
    have same : tcpLength (data ++ after) = tcpLength data := by
      rw [tcpLength, Bytes.byte_append (by omega), tcpLength]
    have read' : ((network IpProtocol.tcp 4 length).reading .tcp (data ++ after)).isComplete
        = false := by
      rw [Bool.eq_false_iff]
      intro complete
      have words := (tcp_isComplete.mp complete).1
      omega
    exact contents_append_of_failed held claimed rfl read read'

theorem contents_udp_append (announced : length ≤ data.length) (whole : wholeUdp data = true)
    (after : Bytes) :
    (network IpProtocol.udp 4 length).contents (data ++ after)
      = (network IpProtocol.udp 4 length).contents data := by
  have claimed : (network IpProtocol.udp 4 length).claimant = some .udp := rfl
  obtain ⟨long, whole⟩ := Bool.and_eq_true_iff.mp whole
  have long : 8 ≤ data.length := of_decide_eq_true long
  have held : data ≠ [] := List.ne_nil_of_length_pos (by omega)
  have read : ((network IpProtocol.udp 4 length).reading .udp data).isComplete = true :=
    udp_isComplete.mpr long
  obtain ⟨rest, hints⟩ := udp_read read
  have carried : toDns data = true → wholeMessage (data.drop 8) = true := by
    simpa [or_iff_not_imp_left] using whole
  refine contents_append_of_behind held claimed rfl (fun _ => announces _ announced) read
    (.udp _ _) hints (contents_transport_append (fun ports => ?_) after)
  have message := carried (toDns_iff.mpr ports)
  rw [← rest] at message
  exact message

theorem contents_icmp_append (announced : length ≤ data.length) (long : 8 ≤ data.length)
    (after : Bytes) :
    (network IpProtocol.icmp 4 length).contents (data ++ after)
      = (network IpProtocol.icmp 4 length).contents data := by
  have claimed : (network IpProtocol.icmp 4 length).claimant = some .icmp := rfl
  have held : data ≠ [] := List.ne_nil_of_length_pos (by omega)
  have read : ((network IpProtocol.icmp 4 length).reading .icmp data).isComplete = true :=
    icmp_isComplete.mpr long
  obtain ⟨next, follows, hints⟩ := Protocol.read_follows read
  have closed : ∀ bs, next.contents bs = [] := by
    intro bs
    cases follows
    refine contents_unclaimed (List.find?_eq_none.mpr fun p _ claims => ?_)
    rw [claims_closed] at claims
    cases claims
  exact contents_append_of_behind held claimed rfl (fun _ => announces _ announced) read follows
    hints ((closed _).trans (closed _).symm)

theorem contents_network_append {protocol : Nat} (announced : length ≤ data.length)
    (whole : wholeBody protocol data = true) (after : Bytes) :
    (network protocol 4 length).contents (data ++ after)
      = (network protocol 4 length).contents data := by
  have claimed := next?_network protocol length Protocol.ethernetLink
  unfold wholeBody at whole
  by_cases tcp : protocol = IpProtocol.tcp
  · subst tcp
    exact contents_tcp_append announced whole after
  · by_cases udp : protocol = IpProtocol.udp
    · subst udp
      exact contents_udp_append announced whole after
    · by_cases icmp : protocol = IpProtocol.icmp
      · subst icmp
        exact contents_icmp_append announced (of_decide_eq_true whole) after
      · rw [if_neg tcp, if_neg udp, if_neg icmp] at claimed
        rw [contents_unclaimed claimed, contents_unclaimed claimed]

/-- A TCP header that is cut off is completed by padding that gives it a length. -/
theorem tcpLength_fives (cut : 13 ≤ data.length → 20 ≤ tcpLength data) :
    20 ≤ tcpLength (data ++ fives) ∧ tcpLength (data ++ fives) ≤ (data ++ fives).length := by
  have small := (Bytes.byte (data ++ fives) 12).toNat_lt
  have least : 20 ≤ tcpLength (data ++ fives) := by
    by_cases long : 13 ≤ data.length
    · rw [tcpLength, Bytes.byte_append (by omega)]
      exact cut long
    · have five : Bytes.byte (data ++ fives) 12 = 0x50 := by
        rw [Bytes.byte, List.getD_eq_getElem?_getD, List.getElem?_append_right (by omega), fives,
          List.getElem?_replicate, if_pos (by omega)]
        rfl
      rw [tcpLength, five]
      decide
  refine ⟨least, ?_⟩
  rw [length_append_fives, tcpLength]
  omega

theorem contents_tcp_gains (announced : length ≤ data.length) (cut : wholeTcp data = false) :
    ∃ after, ((network IpProtocol.tcp 4 length).contents data).Gains 2
      ((network IpProtocol.tcp 4 length).contents (data ++ after)) := by
  have claimed : (network IpProtocol.tcp 4 length).claimant = some .tcp := rfl
  cases read : ((network IpProtocol.tcp 4 length).reading .tcp data).isComplete with
  | true =>
    obtain ⟨rest, hints⟩ := tcp_read read
    obtain ⟨words, fits⟩ := tcp_isComplete.mp read
    have long : 13 ≤ data.length := by omega
    have held : data ≠ [] := List.ne_nil_of_length_pos (by omega)
    obtain ⟨ports, message⟩ : toDns data = true ∧
        wholeMessage (data.drop (tcpLength data + 2)) = false := by
      simpa [wholeTcp, long, Nat.not_lt.mpr words, fits] using cut
    rw [← List.drop_drop, ← rest] at message
    exact ⟨zeros, .mono (Nat.le_succ 2) (contents_gains_of_behind held claimed rfl
      (fun _ => announces _ announced) read (.tcp _ _) hints (Nat.le_refl 3)
      (contents_transport_zeros (toDns_iff.mp ports) message))⟩
  | false =>
    have least : 13 ≤ data.length → 20 ≤ tcpLength data := by
      intro long
      by_contra short
      simp [wholeTcp, long, Nat.lt_of_not_le short] at cut
    have read' : ((network IpProtocol.tcp 4 length).reading .tcp (data ++ fives)).isComplete
        = true :=
      tcp_isComplete.mpr (tcpLength_fives least)
    obtain ⟨_, _, shown, _⟩ := Protocol.read_transport (.inl rfl) read'
    have some_ : data ++ fives ≠ [] :=
      List.ne_nil_of_length_pos (by rw [length_append_fives]; omega)
    exact ⟨fives, contents_gains claimed rfl (Nat.lt_succ_self 2) some_ read read'
      (Option.isSome_of_eq_some shown)⟩

theorem contents_udp_gains (announced : length ≤ data.length) (cut : wholeUdp data = false) :
    ∃ after, ((network IpProtocol.udp 4 length).contents data).Gains 2
      ((network IpProtocol.udp 4 length).contents (data ++ after)) := by
  have claimed : (network IpProtocol.udp 4 length).claimant = some .udp := rfl
  have some_ : data ++ zeros ≠ [] :=
    List.ne_nil_of_length_pos (by rw [length_append_zeros]; omega)
  refine ⟨zeros, ?_⟩
  cases read : ((network IpProtocol.udp 4 length).reading .udp data).isComplete with
  | true =>
    obtain ⟨rest, hints⟩ := udp_read read
    have long : 8 ≤ data.length := udp_isComplete.mp read
    have held : data ≠ [] := List.ne_nil_of_length_pos (by omega)
    obtain ⟨ports, message⟩ : toDns data = true ∧ wholeMessage (data.drop 8) = false := by
      simpa [wholeUdp, long] using cut
    rw [← rest] at message
    exact .mono (Nat.le_succ 2) (contents_gains_of_behind held claimed rfl
      (fun _ => announces _ announced) read (.udp _ _) hints (Nat.le_refl 3)
      (contents_transport_zeros (toDns_iff.mp ports) message))
  | false =>
    have read' : ((network IpProtocol.udp 4 length).reading .udp (data ++ zeros)).isComplete
        = true :=
      udp_isComplete.mpr (by rw [length_append_zeros]; omega)
    obtain ⟨_, _, shown, _⟩ := Protocol.read_transport (.inr rfl) read'
    exact contents_gains claimed rfl (Nat.lt_succ_self 2) some_ read read'
      (Option.isSome_of_eq_some shown)

theorem contents_icmp_gains (short : ¬ 8 ≤ data.length) :
    ((network IpProtocol.icmp 4 length).contents data).Gains 2
      ((network IpProtocol.icmp 4 length).contents (data ++ zeros)) := by
  have claimed : (network IpProtocol.icmp 4 length).claimant = some .icmp := rfl
  have longer := length_append_zeros data
  have read : ((network IpProtocol.icmp 4 length).reading .icmp data).isComplete = false :=
    Bool.eq_false_iff.mpr fun complete => short (icmp_isComplete.mp complete)
  have read' : ((network IpProtocol.icmp 4 length).reading .icmp (data ++ zeros)).isComplete
      = true :=
    icmp_isComplete.mpr (by omega)
  have shown : ((icmp (data ++ zeros)).field? "type").isSome := by
    rw [icmp, if_neg (by omega)]
    rfl
  exact contents_gains claimed rfl (Nat.lt_succ_self 2)
    (List.ne_nil_of_length_pos (by omega)) read read' shown

theorem contents_network_gains {protocol : Nat} (announced : length ≤ data.length)
    (cut : wholeBody protocol data = false) :
    ∃ after, ((network protocol 4 length).contents data).Gains 2
      ((network protocol 4 length).contents (data ++ after)) := by
  unfold wholeBody at cut
  by_cases tcp : protocol = IpProtocol.tcp
  · subst tcp
    exact contents_tcp_gains announced cut
  · by_cases udp : protocol = IpProtocol.udp
    · subst udp
      exact contents_udp_gains announced cut
    · by_cases icmp : protocol = IpProtocol.icmp
      · subst icmp
        exact ⟨zeros, contents_icmp_gains (of_decide_eq_false cut)⟩
      · rw [if_neg tcp, if_neg udp, if_neg icmp] at cut
        cases cut

end Network

/-! ### The datagram -/

section Datagram

variable (long : 4 ≤ data.length) (covers : (Bytes.word16 data 2).toNat = data.length)
include long covers

theorem contents_datagram_append (whole : wholeDatagram data = true) (after : Bytes) :
    (link EtherType.ipv4).contents (data ++ after) = (link EtherType.ipv4).contents data := by
  have claimed : (link EtherType.ipv4).claimant = some .ipv4 := rfl
  have held : data ≠ [] := List.ne_nil_of_length_pos (by omega)
  cases read : ((link EtherType.ipv4).reading .ipv4 data).isComplete with
  | true =>
    obtain ⟨rest, hints⟩ := ipv4_read read
    obtain ⟨version, words, fits⟩ := ipv4_isComplete.mp read
    have body : wholeBody (Bytes.byte data 9).toNat (data.drop (ipv4Length data)) = true := by
      simpa [wholeDatagram, version, Nat.not_lt.mpr words, fits] using whole
    have announced : (Bytes.word16 data 2).toNat - ipv4Length data
        ≤ (data.drop (ipv4Length data)).length := by
      rw [List.length_drop, covers]
    rw [← rest] at body announced
    exact contents_append_of_behind held claimed rfl (fun tcp => absurd tcp (by decide)) read
      (.ipv4 _ _) hints (contents_network_append announced body after)
  | false =>
    -- A whole datagram fails by its first byte alone, which no padding changes.
    have malformed : (Bytes.byte data 0).toNat / 16 ≠ 4 ∨ ipv4Length data < 20 := by
      by_contra proper
      rw [not_or, not_not, Nat.not_lt] at proper
      have fits : ipv4Length data ≤ data.length := by
        simp only [wholeDatagram, proper.1, Nat.not_lt.mpr proper.2, ne_eq, not_true_eq_false,
          decide_false, Bool.false_or] at whole
        exact of_decide_eq_true (Bool.and_eq_true_iff.mp whole).1
      exact Bool.false_ne_true (read.symm.trans (ipv4_isComplete.mpr ⟨proper.1, proper.2, fits⟩))
    have same : Bytes.byte (data ++ after) 0 = Bytes.byte data 0 := Bytes.byte_append (by omega) _
    have read' : ((link EtherType.ipv4).reading .ipv4 (data ++ after)).isComplete = false := by
      rw [Bool.eq_false_iff]
      intro complete
      obtain ⟨version, words, _⟩ := ipv4_isComplete.mp complete
      rw [same] at version
      rw [ipv4Length, same] at words
      exact malformed.elim (absurd version) (Nat.not_lt.mpr words)
    exact contents_append_of_failed held claimed rfl read read'

theorem contents_datagram_gains (cut : wholeDatagram data = false) :
    ∃ after, ((link EtherType.ipv4).contents data).Gains 1
      ((link EtherType.ipv4).contents (data ++ after)) := by
  have claimed : (link EtherType.ipv4).claimant = some .ipv4 := rfl
  have held : data ≠ [] := List.ne_nil_of_length_pos (by omega)
  cases read : ((link EtherType.ipv4).reading .ipv4 data).isComplete with
  | true =>
    obtain ⟨rest, hints⟩ := ipv4_read read
    obtain ⟨version, words, fits⟩ := ipv4_isComplete.mp read
    have body : wholeBody (Bytes.byte data 9).toNat (data.drop (ipv4Length data)) = false := by
      simpa [wholeDatagram, version, Nat.not_lt.mpr words, fits] using cut
    have announced : (Bytes.word16 data 2).toNat - ipv4Length data
        ≤ (data.drop (ipv4Length data)).length := by
      rw [List.length_drop, covers]
    rw [← rest] at body announced
    obtain ⟨after, gains⟩ := contents_network_gains announced body
    exact ⟨after, .mono (Nat.le_succ 1) (contents_gains_of_behind held claimed rfl
      (fun tcp => absurd tcp (by decide)) read (.ipv4 _ _) hints (Nat.le_refl 2) gains)⟩
  | false =>
    have proper : ¬ ((Bytes.byte data 0).toNat / 16 ≠ 4 ∨ ipv4Length data < 20) := by
      rintro (other | short)
      · simp [wholeDatagram, other] at cut
      · simp [wholeDatagram, short] at cut
    rw [not_or, not_not, Nat.not_lt] at proper
    obtain ⟨version, words⟩ := proper
    have same : Bytes.byte (data ++ fives) 0 = Bytes.byte data 0 := Bytes.byte_append (by omega) _
    have small := (Bytes.byte data 0).toNat_lt
    have read' : ((link EtherType.ipv4).reading .ipv4 (data ++ fives)).isComplete = true := by
      refine ipv4_isComplete.mpr ⟨same ▸ version, ?_, ?_⟩
      · rwa [ipv4Length, same]
      · rw [ipv4Length, same, length_append_fives]
        omega
    have some_ : data ++ fives ≠ [] := fun empty => held (List.append_eq_nil_iff.mp empty).1
    exact ⟨fives, contents_gains claimed rfl (Nat.lt_succ_self 1) some_ read read'
      (ipv4_version read')⟩

end Datagram

end Stage

/-! ### Frames -/

/-- The packets have the same fields, those of the pseudo-layer `frame` apart, and answer to the
same names. -/
def Packet.Agree (p q : Packet) : Prop :=
  (∀ name, isFrameField name = false → p.field? name = q.field? name) ∧
    p.protocolNames = q.protocolNames

theorem Packet.not_agree_of_gains {p q : Packet} {above : Nat}
    (gains : p.contents.Gains above q.contents) : ¬ p.Agree q := by
  obtain ⟨protocol, name, _, missing, shown⟩ := gains
  intro agree
  have same := agree.1 _ (isFrameField_dotted protocol name)
  rw [field?_eq_contents, field?_eq_contents, missing] at same
  rw [← same] at shown
  cases shown

/-- The total length of an IPv4 header covers exactly the bytes from there to the end. -/
structure Layer.CoversRest (layer : Layer) (frame : Bytes) : Prop where
  ipv4 : layer.protocol = .ipv4
  inside : layer.start + 4 ≤ frame.length
  total : (Bytes.word16 frame (layer.start + 2)).toNat = frame.length - layer.start

section Frame

variable {frame : Bytes} {layer : Layer}

theorem Packet.contents_decode (frame : Bytes) (capture : Capture) :
    (decode Protocol.all Protocol.ethernetLink frame capture).contents
      = Stage.first.contents frame := by
  have decodes : Decodes Protocol.all (Stage.first.context Protocol.ethernetLink) 0 frame _ :=
    Decodes.iff_eq_ofFrame.mpr rfl
  exact decodes.contents_eq

/-- Padding behind an IPv4 datagram that ends with the frame changes no field and no name if and
only if the datagram holds the headers that it announces, and over the port of DNS the message
and its question. -/
theorem Packet.padding_agrees_iff
    (member : layer ∈ Layer.ofFrame Protocol.all Protocol.ethernetLink frame)
    (covers : layer.CoversRest frame) :
    (∀ (padding : Bytes) (capture capture' : Capture),
      (decode Protocol.all Protocol.ethernetLink frame capture).Agree
        (decode Protocol.all Protocol.ethernetLink (frame ++ padding) capture')) ↔
      Header.wholeDatagram (frame.drop layer.start) = true := by
  have decodes : Decodes Protocol.all (Stage.first.context Protocol.ethernetLink) 0 frame _ :=
    Decodes.iff_eq_ofFrame.mpr rfl
  obtain ⟨_, below, low, shown⟩ := decodes.linksTo member covers.ipv4
  have inside := covers.inside
  have rest : (frame.drop layer.start).length = frame.length - layer.start := List.length_drop
  have total : (Bytes.word16 (frame.drop layer.start) 2).toNat
      = (frame.drop layer.start).length := by
    rw [rest, ← covers.total, Bytes.word16, Bytes.slice, List.drop_drop]
    rfl
  have unpadded := shown []
  rw [List.append_nil, List.append_nil] at unpadded
  rw [Nat.sub_zero] at shown unpadded
  constructor
  · intro agree
    by_contra cut
    rw [Bool.not_eq_true] at cut
    obtain ⟨after, gains⟩ := Stage.contents_datagram_gains (by omega) total cut
    have gains := gains.append low
    rw [← shown, ← unpadded] at gains
    let blank : Capture := ⟨0, 0, 0, 0, 0⟩
    rw [← contents_decode _ blank, ← contents_decode _ blank] at gains
    exact not_agree_of_gains gains (agree after blank blank)
  · intro whole padding capture capture'
    have same : (decode Protocol.all Protocol.ethernetLink frame capture).contents
        = (decode Protocol.all Protocol.ethernetLink (frame ++ padding) capture').contents := by
      rw [contents_decode, contents_decode, shown, unpadded,
        Stage.contents_datagram_append (by omega) total whole]
    exact ⟨fun name => field?_congr same, protocolNames_congr same⟩

end Frame

/-- A UDP datagram without payload to the given port, in an Ethernet frame. -/
def emptyDatagram (port : UInt8) : Bytes :=
  List.replicate 12 0 ++ [0x08, 0x00]
    ++ [0x45, 0, 0, 28, 0, 0, 0, 0, 64, 17, 0, 0, 10, 0, 0, 1, 10, 0, 0, 2]
    ++ [0x30, 0x39, 0, port, 0, 8, 0, 0]

/-- The IPv4 layer of a datagram in an untagged frame. -/
def ipv4LayerOf (frame : Bytes) : Layer :=
  .readAt .ipv4 ((Stage.link EtherType.ipv4).context Protocol.ethernetLink) 14 (frame.drop 14)

/-- Padding behind an empty datagram to the port of discard is not seen. -/
theorem Packet.padding_agrees_discard :
    ipv4LayerOf (emptyDatagram 9) ∈
        Layer.ofFrame Protocol.all Protocol.ethernetLink (emptyDatagram 9) ∧
      (ipv4LayerOf (emptyDatagram 9)).CoversRest (emptyDatagram 9) ∧
      ∀ (padding : Bytes) (capture capture' : Capture),
        (decode Protocol.all Protocol.ethernetLink (emptyDatagram 9) capture).Agree
          (decode Protocol.all Protocol.ethernetLink (emptyDatagram 9 ++ padding) capture') := by
  have member : ipv4LayerOf (emptyDatagram 9) ∈
      Layer.ofFrame Protocol.all Protocol.ethernetLink (emptyDatagram 9) := by decide +kernel
  have covers : (ipv4LayerOf (emptyDatagram 9)).CoversRest (emptyDatagram 9) :=
    ⟨rfl, by decide, by decide⟩
  exact ⟨member, covers, (padding_agrees_iff member covers).mpr (by decide)⟩

/-- Eighteen zero bytes, which fill an empty datagram to the port of DNS up to the shortest frame
of Ethernet, are read as a DNS message. -/
theorem Packet.padding_read_as_dns :
    let frame := emptyDatagram 53
    let padded := frame ++ List.replicate 18 0
    let shown := fun frame : Bytes =>
      (decode Protocol.all Protocol.ethernetLink frame ⟨1, 24, 0, 60, 60⟩).field? "dns.id"
    ipv4LayerOf frame ∈ Layer.ofFrame Protocol.all Protocol.ethernetLink frame ∧
      (ipv4LayerOf frame).CoversRest frame ∧ shown frame = none ∧ shown padded = some (.u16 0) := by
  refine ⟨by decide +kernel, ⟨rfl, by decide, by decide⟩, by decide +kernel, by decide +kernel⟩

end PacketQuery
