import PacketQuery.Frame.Assembly
import PacketQuery.Proofs.Language.Harvest
import PacketQuery.Proofs.Language.Location
/-!
What the catalogue keeps back. A scan offers the entries that have every protocol a statement
names and whose addresses lie in the networks it names, whatever stands between the names. So an
accepted packet is lost exactly where it lacks a protocol that the filter merely mentions, or has
an address outside the networks mentioned for its role; conjunctions of comparisons lose none.
-/

namespace PacketQuery.Language

/-- The filter names the protocol, given in capitals: as a word, a layer of a field or a base. -/
def Expr.Names (f : Expr) (word : String) : Prop :=
  ∃ m ∈ f.mentions, m.word? = some word

/-- The networks that the filter names for a role: those after a field of the role, with no other
dotted field between. -/
def Expr.networksFor (f : Expr) (role : Role) : List Network :=
  Mention.located role none f.mentions

/-- An accepted text that asks for the packets that pass a filter, in the order of capture. -/
structure Selects (now : Int64) (text : String) (s : Statement) (f : Expr) : Prop where
  accepted : (parse now text).1 = .ok s
  wildcard : s.projection = .wildcard
  filter : s.filter = some f
  ungrouped : s.groupBy = []
  unordered : s.orderBy = []

/-- The statement and the filter of such a text. -/
def selected? (now : Int64) (text : String) : Option (Statement × Expr) :=
  match (parse now text).1 with
  | .error _ => none
  | .ok s =>
    match s.projection, s.filter, s.groupBy, s.orderBy with
    | .wildcard, some f, [], [] => some (s, f)
    | _, _, _, _ => none

theorem selects_iff {now : Int64} {text : String} {s : Statement} {f : Expr} :
    Selects now text s f ↔ selected? now text = some (s, f) := by
  unfold selected?
  constructor
  · rintro ⟨accepted, wildcard, filter, ungrouped, unordered⟩
    simp [accepted, wildcard, filter, ungrouped, unordered]
  · intro h
    split at h
    next => cases h
    next s' accepted =>
      split at h
      next wildcard filter ungrouped unordered =>
        cases h
        exact ⟨accepted, wildcard, filter, ungrouped, unordered⟩
      next => cases h

/-- A text is read by evaluating it. -/
theorem exists_selects (now : Int64) (text : String) (test : Statement → Expr → Bool)
    (h : (selected? now text).any (fun selected => test selected.1 selected.2) = true) :
    ∃ s f, Selects now text s f ∧ test s f = true := by
  cases found : selected? now text with
  | none => simp [found] at h
  | some selected => exact ⟨selected.1, selected.2, selects_iff.mpr found, by simpa [found] using h⟩

namespace Selects

variable {now : Int64} {text : String} {s : Statement} {f : Expr}

theorem mentions (h : Selects now text s f) : s.mentions = f.mentions := by
  simp [Statement.mentions, h.wildcard, h.filter, h.ungrouped, h.unordered, Projection.mentions]

theorem mem_protocols (h : Selects now text s f) (word : String) :
    word ∈ s.protocols ↔ f.Names word := by
  rw [(parse_references h.accepted).1, References.mem_noteAll_protocols, h.mentions]
  simp [Expr.Names]

theorem networks (h : Selects now text s f) (role : Role) :
    s.networks.ofRole role = f.networksFor role := by
  rw [(parse_references h.accepted).2, References.noteAll_networks, h.mentions]
  cases role <;> rfl

end Selects

theorem Networks.admits_iff (n : Networks) (address : Role → UInt32) :
    n.admits (address .source) (address .destination) = true ↔
      ∀ role, n.ofRole role = [] ∨ ∃ net ∈ n.ofRole role, net.contains (address role) = true := by
  have both : ∀ holds : Role → Prop, (∀ role, holds role) ↔ holds .source ∧ holds .destination :=
    fun holds => ⟨fun h => ⟨h _, h _⟩, fun h role => by cases role; exacts [h.1, h.2]⟩
  rw [both]
  simp [Networks.admits, Networks.ofRole]

end PacketQuery.Language

namespace PacketQuery.Search

open Catalog (Entry Mask position?)
open PacketQuery.Language

variable {now : Int64} {text : String} {s : Statement} {f : Expr}
variable (linkType : UInt16) (frame : Bytes) (capture recorded : Capture)

theorem getD_ipv4? {value? : Option FieldValue} {address : UInt32}
    (h : value?.getD (.ipv4 0) = .ipv4 address) :
    address = (value?.bind FieldValue.ipv4?).getD 0 := by
  cases value? with
  | none => simpa [eq_comm] using h
  | some value =>
    rw [Option.getD_some] at h
    simp [h, FieldValue.ipv4?]

theorem source_ofPacket :
    (Entry.ofPacket (.decode Protocol.lower linkType frame recorded)).source
      = (Packet.decode Protocol.all linkType frame capture).address .source :=
  getD_ipv4? (Catalog.addresses_ofLayers linkType frame capture).1

theorem destination_ofPacket :
    (Entry.ofPacket (.decode Protocol.lower linkType frame recorded)).destination
      = (Packet.decode Protocol.all linkType frame capture).address .destination :=
  getD_ipv4? (Catalog.addresses_ofLayers linkType frame capture).2

/-- The mask keeps the packets that have every protocol the filter names. -/
theorem includes_iff (h : Selects now text s f) :
    (Entry.ofPacket (.decode Protocol.lower linkType frame recorded)).mask.includes
        (.ofNames s.protocols) = true ↔
      ∀ word, f.Names word → isProtocolName word = true →
        (Packet.decode Protocol.all linkType frame capture).hasLayer word = true := by
  simp only [Mask.includes_iff, Mask.hasBit_ofNames,
    Catalog.hasBit_ofPacket linkType frame capture recorded]
  constructor
  · intro carries word named known
    obtain ⟨i, bit⟩ := Option.isSome_iff_exists.mp (Catalog.isProtocolName_iff_position?.mp known)
    exact (Catalog.hasLayer_iff known).mpr
      ⟨i, bit, carries i ⟨word, (h.mem_protocols word).mpr named, bit⟩⟩
  · rintro present i ⟨word, listed, bit⟩
    have known : isProtocolName word = true :=
      Catalog.isProtocolName_iff_position?.mpr (Option.isSome_iff_exists.mpr ⟨i, bit⟩)
    obtain ⟨j, same, carries⟩ :=
      (Catalog.hasLayer_iff known).mp (present word ((h.mem_protocols word).mp listed) known)
    cases bit.symm.trans same
    exact carries

theorem includes_of_demands (h : Selects now text s f) {moment : Int64}
    (demands : ∀ word i, f.Names word → position? word = some i → f.Demands i)
    (accepted : accepts (.decode Protocol.all linkType frame capture) moment f = true) :
    (Entry.ofPacket (.decode Protocol.lower linkType frame recorded)).mask.includes
      (.ofNames s.protocols) = true := by
  refine (includes_iff linkType frame capture recorded h).mpr fun word named known => ?_
  obtain ⟨i, bit⟩ := Option.isSome_iff_exists.mp (Catalog.isProtocolName_iff_position?.mp known)
  refine (Catalog.hasLayer_iff known).mpr ⟨i, bit, ?_⟩
  by_contra without
  rw [not_accepts_of_demands without f (demands word i named bit)] at accepted
  cases accepted

/-- The networks keep the packets whose addresses lie in one of those named for their role. -/
theorem admits_iff (h : Selects now text s f) :
    s.networks.admits (Entry.ofPacket (.decode Protocol.lower linkType frame recorded)).source
        (Entry.ofPacket (.decode Protocol.lower linkType frame recorded)).destination = true ↔
      ∀ role, f.networksFor role = [] ∨ ∃ net ∈ f.networksFor role,
        net.contains ((Packet.decode Protocol.all linkType frame capture).address role) = true := by
  rw [source_ofPacket linkType frame capture, destination_ofPacket linkType frame capture,
    Networks.admits_iff]
  simp only [h.networks]

/-- The mask keeps exactly the packets with every protocol that the filter names. It loses no
packet that the filter accepts where the filter demands each of them. -/
theorem mask_prefilter (h : Selects now text s f) (moment : Int64) :
    let p := Packet.decode Protocol.all linkType frame capture
    let e := Entry.ofPacket (.decode Protocol.lower linkType frame recorded)
    (e.mask.includes (.ofNames s.protocols) = true ↔
        ∀ word, f.Names word → isProtocolName word = true → p.hasLayer word = true) ∧
      ((∀ word i, f.Names word → position? word = some i → f.Demands i) →
        accepts p moment f = true → e.mask.includes (.ofNames s.protocols) = true) :=
  ⟨includes_iff linkType frame capture recorded h,
    includes_of_demands linkType frame capture recorded h⟩

/-- A UDP datagram from one host of a network to another. -/
def sampleFrame : Bytes :=
  Assembly.udpFrame [10, 0, 0, 2] [10, 0, 0, 3] 1000 2000 []

/-- The place of the first packet of a segment. -/
def sampleCapture : Capture :=
  ⟨1, 24, 0, 42, 42⟩

/-- The datagram as a search decodes it. -/
def samplePacket : Packet :=
  .decode Protocol.all Protocol.ethernetLink sampleFrame sampleCapture

/-- The datagram as the catalogue keeps it. -/
def sampleEntry : Entry :=
  .ofPacket (.decode Protocol.lower Protocol.ethernetLink sampleFrame sampleCapture)

theorem mask_prefilter_udp : ∃ s f, Selects 0 "select * from a where udp and ip.ttl > 3" s f ∧
    ∀ word, f.Names word → isProtocolName word = true →
      samplePacket.hasLayer word = true := by
  obtain ⟨s, f, selects, kept⟩ := exists_selects 0 "select * from a where udp and ip.ttl > 3"
    (fun s _ => sampleEntry.mask.includes (.ofNames s.protocols)) (by decide +kernel)
  exact ⟨s, f, selects, (mask_prefilter Protocol.ethernetLink sampleFrame sampleCapture
    sampleCapture selects 0).1.mp kept⟩

/-- A disjunction of protocols loses the packets that have only one of them. -/
theorem mask_prefilter_loses : ∃ s f, Selects 0 "select * from a where tcp or udp" s f ∧
    accepts samplePacket 0 f = true ∧
    sampleEntry.mask.includes (.ofNames s.protocols) = false := by
  obtain ⟨s, f, selects, lost⟩ := exists_selects 0 "select * from a where tcp or udp"
    (fun s f => accepts samplePacket 0 f && !sampleEntry.mask.includes (.ofNames s.protocols))
    (by decide +kernel)
  rw [Bool.and_eq_true, Bool.not_eq_true'] at lost
  exact ⟨s, f, selects, lost⟩

/-- The networks keep exactly the packets whose addresses lie in one of those that the filter
names for their role. They lose no packet that the filter accepts where the filter locates each
address in them. -/
theorem network_prefilter (h : Selects now text s f) (moment : Int64) :
    let p := Packet.decode Protocol.all linkType frame capture
    let e := Entry.ofPacket (.decode Protocol.lower linkType frame recorded)
    (s.networks.admits e.source e.destination = true ↔
        ∀ role, f.networksFor role = [] ∨
          ∃ net ∈ f.networksFor role, net.contains (p.address role) = true) ∧
      ((∀ role, f.networksFor role = [] ∨ f.Locates role (f.networksFor role)) →
        accepts p moment f = true → s.networks.admits e.source e.destination = true) := by
  intro p e
  have exact := admits_iff linkType frame capture recorded h
  refine ⟨exact, fun located accepted => exact.mpr fun role => ?_⟩
  exact (located role).imp_right fun locates => exists_contains_of_locates locates accepted

theorem network_prefilter_source : ∃ s f,
    Selects 0 "select * from a where ip.src in (10.0.0.0/24, 192.168.0.0/16)" s f ∧
      ∀ role, f.networksFor role = [] ∨ ∃ net ∈ f.networksFor role,
        net.contains (samplePacket.address role) = true := by
  obtain ⟨s, f, selects, kept⟩ := exists_selects 0
    "select * from a where ip.src in (10.0.0.0/24, 192.168.0.0/16)"
    (fun s _ => s.networks.admits sampleEntry.source sampleEntry.destination) (by decide +kernel)
  exact ⟨s, f, selects, (network_prefilter Protocol.ethernetLink sampleFrame sampleCapture
    sampleCapture selects 0).1.mp kept⟩

/-- A filter that an address must not pass loses every packet that it accepts. -/
theorem network_prefilter_loses : ∃ s f, Selects 0 "select * from a where ip.src != 10.0.0.1" s f ∧
    accepts samplePacket 0 f = true ∧
    s.networks.admits sampleEntry.source sampleEntry.destination = false := by
  obtain ⟨s, f, selects, lost⟩ := exists_selects 0 "select * from a where ip.src != 10.0.0.1"
    (fun s f => accepts samplePacket 0 f &&
      !s.networks.admits sampleEntry.source sampleEntry.destination) (by decide +kernel)
  rw [Bool.and_eq_true, Bool.not_eq_true'] at lost
  exact ⟨s, f, selects, lost⟩

end PacketQuery.Search
