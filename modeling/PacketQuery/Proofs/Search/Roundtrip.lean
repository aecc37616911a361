import PacketQuery.Proofs.Catalog.Building
import PacketQuery.Proofs.Search.Diagnostics
import PacketQuery.Proofs.Search.Truncation
/-!
After a build, a search for everything finds every packet that was catalogued, once and in the
order of segments and offsets.
-/

namespace PacketQuery.Search

open Catalog (Archive Entry Extent Files Mask Readout entriesOf)
open PacketQuery.Language (Statement)

/-- The statement that asks for all columns of all packets. -/
def selectAll : Statement where
  distinct := false
  projection := .wildcard
  sources := ["a"]
  filter := none
  groupBy := []
  orderBy := []
  protocols := []
  networks := {}
  top := none
  limit := none
  interval := none

def selectAllText : String := "select * from a"

theorem tokens_selectAllText : Language.compose (Language.tokens selectAllText)
    = [⟨.keyword .select, "select", 1, 1⟩, ⟨.symbol .star, "*", 1, 8⟩,
      ⟨.keyword .from_, "from", 1, 10⟩, ⟨.name, "a", 1, 15⟩, ⟨.stop, "", 1, 16⟩] := by
  decide +kernel

theorem parse_selectAllText (now : Int64) :
    (Language.parse now selectAllText).1 = .ok selectAll := by
  rw [Language.parse, tokens_selectAllText]
  rfl

/-- The packets of a segment, decoded. -/
def packetsOf (id : UInt32) (r : Readout) : List Packet :=
  r.2.map (Packet.ofCaptured Protocol.all r.1.linkType id)

/-- The packets that a build catalogues of a segment. -/
def packetsIn (a : Archive) (files : Files) (id : UInt32) : List Packet :=
  ((a.stored? files id).map (packetsOf id)).getD []

/-- A packet of a lower segment, or of the same segment and at a lower offset. -/
def Precedes (p q : Packet) : Prop :=
  p.capture.segment < q.capture.segment ∨
    (p.capture.segment = q.capture.segment ∧ p.capture.offset < q.capture.offset)

instance transCmp_byOffset : Std.TransCmp byOffset :=
  inferInstanceAs (Std.TransCmp (compareOn fun e : Entry => e.offset.toNat))

section Visit

variable {segment : Segment} {cs : List Captured} (whole : segment.packets = .ok cs)
  (short : segment.data.length ≤ UInt64.size)
include whole short

theorem offset_toNat {p : Captured} (member : p ∈ cs) :
    (UInt64.ofNat p.offset).toNat = p.offset := by
  have inside := (Segment.packetAt?_of_mem whole member).2
  exact UInt64.toNat_ofNat_of_lt' (Nat.lt_of_lt_of_le inside short)

theorem entriesOf_ascend (id : UInt32) :
    (entriesOf id (segment, cs)).Pairwise fun e f => byOffset e f = .lt := by
  rw [entriesOf, List.pairwise_map]
  refine (Segment.offsets_ascend whole).imp_of_mem fun {p q} first second lt => ?_
  have offset := offset_toNat whole short first
  have offset' := offset_toNat whole short second
  refine Nat.compare_eq_lt.mpr ?_
  change (UInt64.ofNat p.offset).toNat < (UInt64.ofNat q.offset).toNat
  rwa [offset, offset']

theorem packetsOf_ascend (id : UInt32) : (packetsOf id (segment, cs)).Pairwise Precedes := by
  rw [packetsOf, List.pairwise_map]
  refine (Segment.offsets_ascend whole).imp_of_mem fun {p q} first second lt => .inr ⟨rfl, ?_⟩
  have offset := offset_toNat whole short first
  have offset' := offset_toNat whole short second
  refine UInt64.lt_iff_toNat_lt.mpr ?_
  change (UInt64.ofNat p.offset).toNat < (UInt64.ofNat q.offset).toNat
  rwa [offset, offset']

end Visit

theorem segment_of_mem_packetsOf {id : UInt32} {r : Readout} {p : Packet}
    (member : p ∈ packetsOf id r) : p.capture.segment = id := by
  obtain ⟨_, _, rfl⟩ := List.mem_map.mp member
  rfl

/-- The packets of segments in ascending order, one segment after another. -/
theorem flatMap_precedes {ids : List UInt32} (ascending : ids.Pairwise (· < ·))
    {packets : UInt32 → List Packet} (each : ∀ id ∈ ids, (packets id).Pairwise Precedes)
    (inside : ∀ id ∈ ids, ∀ p ∈ packets id, p.capture.segment = id) :
    (ids.flatMap packets).Pairwise Precedes := by
  rw [List.pairwise_flatMap]
  refine ⟨each, ascending.imp_of_mem fun {i j} hi hj lt p first q second => .inl ?_⟩
  rw [inside i hi p first, inside j hj q second]
  exact lt

section Built

variable {a : Archive} {files : Files} {index : List String} {id : UInt32} {segment : Segment}
  {cs : List Captured} (d : Catalog.IsTableDirectory files a.index index)
  (holds : a.Holds files index id (segment, cs))
include d holds

end Built

section Matched

variable {a : Archive} {files : Files} {s : Statement} {now : Int64} {hits : UInt32 → List Hit}
  {ids : List UInt32} (ascending : ids.Pairwise (· < ·))
  (visits : ∀ id ∈ ids, visit a files s now id = ⟨(hits id).length, [], (hits id).map .matched⟩)

include ascending visits

end Matched

section Catalogued

variable {a : Archive} {files : Files}

theorem packetsIn_of_stored? {id : UInt32} {r : Readout} (stored : a.stored? files id = some r) :
    packetsIn a files id = packetsOf id r := by
  rw [packetsIn, stored]
  rfl

theorem readout_of_readout? {id : UInt32} {r : Readout} (read : a.readout? files id = some r) :
    a.openSegment files id = .ok r.1 ∧ r.1.packets = .ok r.2 := by
  unfold Archive.readout? at read
  split at read
  next => cases read
  next segment opened =>
    cases whole : segment.packets with
    | error fault =>
      rw [whole] at read
      cases read
    | ok cs =>
      rw [whole] at read
      cases read
      exact ⟨opened, whole⟩

/-- A catalogued segment without packets has no extent. -/
theorem segment_extentsOf (ids : List UInt32) :
    (a.extentsOf files ids).map (·.segment)
      = ids.filter fun id => !(packetsIn a files id).isEmpty := by
  rw [Archive.extentsOf, List.map_filterMap, ← List.filterMap_eq_filter]
  refine List.filterMap_congr fun id _ => ?_
  rw [Option.guard]
  cases stored : a.stored? files id with
  | none => simp [packetsIn, stored]
  | some r =>
    rw [packetsIn_of_stored? stored, Option.bind_some]
    cases packets : r.2 <;> simp [entriesOf, packetsOf, packets, Extent.ofEntries?]

theorem flatMap_filter_of_nil {α β : Type} {keep : α → Bool} {f : α → List β} {xs : List α}
    (lost : ∀ x ∈ xs, keep x = false → f x = []) : (xs.filter keep).flatMap f = xs.flatMap f := by
  induction xs with
  | nil => rfl
  | cons x xs ih =>
    have rest := ih fun y member => lost y (List.mem_cons_of_mem x member)
    rw [List.filter_cons, List.flatMap_cons, ← rest]
    cases kept : keep x with
    | true => rfl
    | false => rw [lost x List.mem_cons_self kept]; rfl

end Catalogued

section Search

variable {a : Archive} {files built : Files} {ids : List UInt32} {report : Catalog.BuildReport}
  {place : List String} (ascending : ids.Pairwise (· < ·))
  (short : ∀ id segment, a.openSegment files id = .ok segment →
    segment.data.length ≤ UInt64.size)

variable (b : a.Built files built ids report place)
include b short

include ascending

end Search

section Sample

end Sample

end PacketQuery.Search
