import PacketQuery.Frame.Assembly
import PacketQuery.Frame.Protocol
import PacketQuery.Proofs.Bytes
import PacketQuery.Proofs.Frame.DomainName
import PacketQuery.Proofs.Text.Numerals
/-!
The question of an assembled DNS query is read back: its labels on the wire are the texts between
the points of the name, and the name that is read has the same labels.
-/

namespace PacketQuery.Assembly

open Header (IsLabel wire)

/-- The labels of a name: the texts between its points, without those that are empty. -/
def nameLabels (name : String) : List String :=
  ((Text.pieces '.' name.toList).filter (!·.isEmpty)).map String.ofList

/-- What a query with one question reads as. -/
def dnsQueryFields (id : UInt16) (name : String) (kind : UInt16) : List (String × FieldValue) :=
  [("id", .u16 id), ("qr", .flag false), ("opcode", .u8 0), ("rcode", .u8 0),
    ("qdcount", .u16 1), ("ancount", .u16 0),
    ("qname", .text (Text.joined "." (nameLabels name))), ("qtype", .u16 kind)]

theorem nameBytes_eq_wire (name : String) :
    nameBytes name = wire ((nameLabels name).map Text.toUtf8) ++ [0] := by
  rw [nameLabels, List.map_map, wire, List.flatMap_map]
  rfl

section Labels

variable {name label : String} (h : label ∈ nameLabels name)
include h

theorem ne_empty_of_mem_nameLabels : label ≠ "" := by
  obtain ⟨piece, found, rfl⟩ := List.mem_map.mp h
  obtain ⟨_, some_⟩ := List.mem_filter.mp found
  intro empty
  have none : piece = [] := String.ofList_inj.mp empty
  rw [none] at some_
  cases some_

theorem point_notMem_of_mem_nameLabels : '.' ∉ label.toList := by
  obtain ⟨piece, found, rfl⟩ := List.mem_map.mp h
  obtain ⟨found, _⟩ := List.mem_filter.mp found
  rw [String.toList_ofList]
  exact Text.notMem_of_mem_pieces found

end Labels

/-- Texts without points are the labels of the name that they are joined to. -/
theorem nameLabels_joined {labels : List String}
    (each : ∀ label ∈ labels, label ≠ "" ∧ '.' ∉ label.toList) :
    nameLabels (Text.joined "." labels) = labels := by
  by_cases some_ : labels = []
  · subst some_
    rfl
  · have pieces : Text.pieces '.' (Text.joined "." labels).toList = labels.map String.toList :=
      Text.pieces_joined some_ fun label found => (each label found).2
    have all : (labels.map String.toList).filter (!·.isEmpty) = labels.map String.toList := by
      refine List.filter_eq_self.mpr fun piece found => ?_
      obtain ⟨label, named, rfl⟩ := List.mem_map.mp found
      have held := (each label named).1
      simpa using held
    rw [nameLabels, pieces, all, List.map_map]
    exact List.map_id'' (fun label => String.ofList_toList) labels

/-- A name and the name that its labels make ask the same question. -/
theorem dnsQuery_joined (id kind : UInt16) (name : String) :
    dnsQuery id (Text.joined "." (nameLabels name)) kind = dnsQuery id name kind := by
  have same : nameLabels (Text.joined "." (nameLabels name)) = nameLabels name :=
    nameLabels_joined fun label found =>
      ⟨ne_empty_of_mem_nameLabels found, point_notMem_of_mem_nameLabels found⟩
  rw [dnsQuery, dnsQuery, nameBytes_eq_wire, nameBytes_eq_wire, same]

section Query

variable {name : String} (few : (nameLabels name).length ≤ Header.maxLabels)
  (short : ∀ label ∈ nameLabels name, (Text.toUtf8 label).length ≤ 63)
include few short

/-- The name of an assembled query, and whatever follows it. -/
theorem domainName_nameBytes (after : Bytes) :
    Header.domainName (nameBytes name ++ after)
      = .ok (Text.joined "." (nameLabels name), (nameBytes name).length) := by
  have each : ∀ label ∈ (nameLabels name).map Text.toUtf8, IsLabel label := by
    intro label found
    obtain ⟨text, named, rfl⟩ := List.mem_map.mp found
    have held := Text.toUtf8_ne_nil (ne_empty_of_mem_nameLabels named)
    exact ⟨List.length_pos_iff.mpr held, short text named⟩
  have back : Header.nameOf ((nameLabels name).map Text.toUtf8)
      = Text.joined "." (nameLabels name) := by
    rw [Header.nameOf, List.map_map]
    exact congrArg (Text.joined ".") (List.map_id'' Text.ofUtf8Lossy_toUtf8 _)
  rw [nameBytes_eq_wire, List.append_assoc, List.singleton_append, List.length_append,
    Header.domainName_of_closes each (by rwa [List.length_map]) (.root after), back]
  rfl

theorem dnsMessage_dnsQuery (id kind : UInt16) (data : Bytes) :
    Header.dnsMessage (dnsQuery id name kind) data
      = .complete (dnsQueryFields id name kind) [] [] := by
  generalize shape : dnsQuery id name kind = message
  have identifier : Bytes.word16 message 0 = id := shape ▸ Bytes.word16_eq rfl
  have flags : Bytes.word16 message 2 = 0x0100 := shape ▸ rfl
  have questions : Bytes.word16 message 4 = 1 := shape ▸ rfl
  have answers : Bytes.word16 message 6 = 0 := shape ▸ rfl
  have behind : message.drop 12
      = nameBytes name ++ (Bytes.ofNatBE 2 kind.toNat ++ Bytes.ofNatBE 2 1) := by
    rw [← shape, ← List.append_assoc]
    rfl
  have long : ¬ message.length < 12 := by
    rw [← shape]
    simp [dnsQuery]
    omega
  have type : Bytes.word16 (message.drop 12) (nameBytes name).length = kind := by
    rw [behind]
    exact Bytes.word16_eq (Bytes.slice_part rfl (Bytes.length_ofNatBE 2 _) _)
  have inside : (nameBytes name).length + 2 ≤ (message.drop 12).length := by
    rw [behind]
    simp
  have named := domainName_nameBytes few short (Bytes.ofNatBE 2 kind.toNat ++ Bytes.ofNatBE 2 1)
  rw [← behind] at named
  have question : Header.dnsQuestion (message.drop 12)
      = .ok [("qname", .text (Text.joined "." (nameLabels name))), ("qtype", .u16 kind)] := by
    simp only [Header.dnsQuestion, named, if_pos inside, type]
  have one : ¬ (1 : UInt16) = 0 := by decide
  simp only [Header.dnsMessage, Header.dnsFixedFields, if_neg long, questions, if_neg one, question,
    identifier, flags, answers]
  rfl

end Query

/-- A query for any name of at most 128 labels of at most 63 bytes is read whole, bare or, over TCP,
behind any two bytes: with its identifier and type, and with the labels of the name. -/
theorem dnsQuery_roundtrip (id kind : UInt16) (name : String)
    (few : (nameLabels name).length ≤ 128)
    (short : ∀ label ∈ nameLabels name, (Text.toUtf8 label).length ≤ 63) (context : Context) :
    (context.hint? .transport ≠ some IpProtocol.tcp →
      Protocol.dns.read (dnsQuery id name kind) context
        = .complete (dnsQueryFields id name kind) [] []) ∧
    (context.hint? .transport = some IpProtocol.tcp → ∀ first second,
      Protocol.dns.read (first :: second :: dnsQuery id name kind) context
        = .complete (dnsQueryFields id name kind) [] []) := by
  refine ⟨fun bare => ?_, fun prefixed first second => ?_⟩
  · change Header.dns _ _ = _
    rw [Header.dns, if_neg bare]
    exact dnsMessage_dnsQuery few short id kind _
  · have long : ¬ (first :: second :: dnsQuery id name kind).length < 2 :=
      Nat.not_lt.mpr (Nat.le_add_left 2 _)
    change Header.dns _ _ = _
    rw [Header.dns, if_pos prefixed, if_neg long]
    exact dnsMessage_dnsQuery few short id kind _

/-- The points that stand first, last and twice leave no trace, and a letter may take two bytes. -/
theorem dnsQuery_roundtrip_points :
    Protocol.dns.read (dnsQuery 7 ".é..example." 28) ⟨1, false, [(.transport, 17)]⟩
      = .complete (dnsQueryFields 7 ".é..example." 28) [] [] ∧
    Protocol.dns.read (0 :: 0 :: dnsQuery 7 ".é..example." 28) ⟨1, false, [(.transport, 6)]⟩
      = .complete (dnsQueryFields 7 ".é..example." 28) [] [] ∧
    dnsQueryFields 7 ".é..example." 28 = [("id", .u16 7), ("qr", .flag false), ("opcode", .u8 0),
      ("rcode", .u8 0), ("qdcount", .u16 1), ("ancount", .u16 0), ("qname", .text "é.example"),
      ("qtype", .u16 28)] := by
  have labels : nameLabels ".é..example." = ["é", "example"] := by decide +kernel
  have few : (nameLabels ".é..example.").length ≤ 128 := by
    rw [labels]
    decide
  have short : ∀ label ∈ nameLabels ".é..example.", (Text.toUtf8 label).length ≤ 63 := by
    simp only [labels, Text.toUtf8_eq_flatMap]
    decide +kernel
  have name : Text.joined "." ["é", "example"] = "é.example" := by decide +kernel
  refine ⟨(dnsQuery_roundtrip 7 28 _ few short _).1 (by decide),
    (dnsQuery_roundtrip 7 28 _ few short _).2 (by decide) 0 0, ?_⟩
  rw [dnsQueryFields, labels, name]

end PacketQuery.Assembly
