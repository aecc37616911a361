import PacketQuery.Proofs.Catalog.Building
import PacketQuery.Proofs.Search.Roundtrip
/-!
Searches of an archive whose catalogue agrees with its segments, as it does after a build. What a
statement finds in a segment are the packets that the catalogue offers and the filter accepts; a
search finds this in every segment that it looks at, one after another.
-/

namespace PacketQuery.Search

open Catalog (Archive Entry Extent Files Mask Readout entriesOf)
open PacketQuery.Language (Statement)

/-- The catalogue offers the packet of an entry to a statement. -/
def offers (s : Statement) (e : Entry) : Bool :=
  e.mask.includes (.ofNames s.protocols) && s.networks.admits e.source e.destination

/-- The captured packets of a segment that a statement is offered. -/
def offeredOf (s : Statement) (id : UInt32) (r : Readout) : List Captured :=
  r.2.filter fun c => offers s (.ofPacket (.ofCaptured Protocol.lower r.1.linkType id c))

/-- The packets that a statement finds in a segment. -/
def foundOf (s : Statement) (now : Int64) (id : UInt32) (r : Readout) : List Packet :=
  ((offeredOf s id r).map (Packet.ofCaptured Protocol.all r.1.linkType id)).filter fun p =>
    s.filter.all (Language.accepts p now)

/-- The packets that a statement finds in a segment of an archive. -/
def foundIn (a : Archive) (files : Files) (s : Statement) (now : Int64) (id : UInt32) :
    List Packet :=
  ((a.readout? files id).map (foundOf s now id)).getD []

/-- The packets that a search reports: those found in the segments it takes, one after another, up
to as many as TOP has room for. -/
def reported (a : Archive) (files : Files) (extents : List Extent) (options : Options)
    (s : Statement) (now : Int64) : List Packet :=
  within (s.top.map (·.toNat))
    ((segmentsFor options s extents).flatMap (foundIn a files s now))

/-- Every extent is that of a segment which can be read to its end, and the table of the segment
has an entry for each of its packets. -/
structure IsCatalogued (a : Archive) (files : Files) (extents : List Extent) : Prop where
  read : a.extents files = .ok extents
  ordered : extents.Pairwise fun e f => e.segment ≤ f.segment
  tables : ∀ e ∈ extents, ∃ r, a.readout? files e.segment = some r ∧
    r.1.data.length ≤ UInt64.size ∧
    a.entries files e.segment
      = .ok (Order.sort Archive.compareOffsets (entriesOf e.segment r)) ∧
    Extent.ofEntries? e.segment (entriesOf e.segment r) = some e

/-- A build that has come to its end leaves an archive that is catalogued. -/
theorem isCatalogued_of_built {a : Archive} {made built : Files} {ids : List UInt32}
    {report : Catalog.BuildReport} {place : List String}
    (b : a.Built made built ids report place) (sorted : ids.Pairwise (· ≤ ·))
    (short : ∀ id segment, a.openSegment built id = .ok segment →
      segment.data.length ≤ UInt64.size) :
    IsCatalogued a built (a.extentsOf made ids) where
  read := b.extents
  ordered := a.extentsOf_pairwise sorted
  tables := by
    intro e member
    obtain ⟨id, inside, found⟩ := List.mem_filterMap.mp member
    obtain ⟨r, stored, extent⟩ := Option.bind_eq_some_iff.mp found
    obtain rfl := Archive.segment_of_ofEntries? extent
    have same : a.readout? built e.segment = a.readout? made e.segment := by
      rw [Archive.readout?, Archive.readout?, b.segments]
    have readout : a.readout? built e.segment = some r := by
      unfold Archive.stored? at stored
      split at stored
      next => cases stored
      next => exact same.trans stored
    have opened := (readout_of_readout? readout).1
    exact ⟨r, readout, short _ _ opened,
      Archive.entries_of_holds b.index (b.holds _ inside r stored), extent⟩

theorem within_map {α β : Type} (f : α → β) (room : Option Nat) (xs : List α) :
    within room (xs.map f) = (within room xs).map f := by
  cases room with
  | none => rfl
  | some n => exact List.map_take.symm

section Segment

variable {a : Archive} {files : Files} {id : UInt32} {r : Readout}
  (read : a.readout? files id = some r) (short : r.1.data.length ≤ UInt64.size)
  (entries : a.entries files id
    = .ok (Order.sort Archive.compareOffsets (entriesOf id r)))
include read short

theorem outcomeOf_captured (s : Statement) (now : Int64) {c : Captured} (member : c ∈ r.2) :
    outcomeOf s now id r.1 (.ofPacket (.ofCaptured Protocol.lower r.1.linkType id c))
      = if s.filter.all (Language.accepts (.ofCaptured Protocol.all r.1.linkType id c) now) then
          .matched (.ofPacket (.ofStatement s) (.ofCaptured Protocol.all r.1.linkType id c))
        else .rejected := by
  have whole := (readout_of_readout? read).2
  have found := (Segment.packetAt?_of_mem whole member).1
  have offset : (Entry.ofPacket (.ofCaptured Protocol.lower r.1.linkType id c)).offset.toNat
      = c.offset := offset_toNat whole short member
  rw [outcomeOf, offset, found]

include entries in
/-- A visit to a segment matches what the statement finds in it. -/
theorem hitsOf_visit (s : Statement) (now : Int64) :
    hitsOf (visit a files s now id).outcomes
      = (foundOf s now id r).map (Hit.ofPacket (.ofStatement s)) := by
  obtain ⟨opened, whole⟩ := readout_of_readout? read
  have scanned : a.scan files id (.ofNames s.protocols) s.networks
      = .ok ((Order.sort Archive.compareOffsets (entriesOf id r)).filter (offers s)) := by
    rw [Archive.scan, entries]
    rfl
  have perm : ((Order.sort Archive.compareOffsets (entriesOf id r)).filter (offers s)).Perm
      ((entriesOf id r).filter (offers s)) := (Order.sort_perm _ _).filter _
  have ascending := (entriesOf_ascend whole short id).filter (offers s)
  have sorted := Order.sort_eq_of_ascending perm ascending
  have kept : (entriesOf id r).filter (offers s) = (offeredOf s id r).map fun c =>
      .ofPacket (.ofCaptured Protocol.lower r.1.linkType id c) := by
    rw [entriesOf, List.filter_map]
    rfl
  have outcomes : hitsOf (((entriesOf id r).filter (offers s)).map (outcomeOf s now id r.1))
      = (foundOf s now id r).map (Hit.ofPacket (.ofStatement s)) := by
    rw [kept, foundOf]
    have inside : ∀ c ∈ offeredOf s id r, c ∈ r.2 := fun c member => (List.mem_filter.mp member).1
    generalize offeredOf s id r = cs at inside
    induction cs with
    | nil => rfl
    | cons c cs ih =>
      have one := outcomeOf_captured read short s now (inside c List.mem_cons_self)
      have rest := ih fun d member => inside d (List.mem_cons_of_mem c member)
      rw [List.map_cons, List.map_cons, List.map_cons, hitsOf_cons, one, rest, List.filter_cons]
      split <;> rfl
  unfold visit
  rw [scanned]
  -- a table that offers nothing is visited without opening its segment
  cases shape : (Order.sort Archive.compareOffsets (entriesOf id r)).filter (offers s) with
  | nil =>
    rw [shape] at perm
    have none := perm.nil_eq
    rw [← none] at outcomes
    exact outcomes
  | cons e es =>
    rw [shape] at sorted
    simp only [opened, sorted, outcomes]

end Segment

theorem foundOf_sublist (s : Statement) (now : Int64) (id : UInt32) (r : Readout) :
    (foundOf s now id r).Sublist (packetsOf id r) :=
  List.filter_sublist.trans (List.filter_sublist.map _)

section Catalogue

variable {a : Archive} {files : Files} {extents : List Extent}

theorem foundIn_of_readout? {id : UInt32} {r : Readout} (read : a.readout? files id = some r)
    (s : Statement) (now : Int64) : foundIn a files s now id = foundOf s now id r := by
  rw [foundIn, read]
  rfl

theorem mem_segmentsFor {options : Options} {s : Statement} {id : UInt32}
    (member : id ∈ segmentsFor options s extents) : ∃ e ∈ extents, e.segment = id := by
  unfold segmentsFor at member
  dsimp only at member
  split at member
  all_goals
    obtain ⟨e, inside, named⟩ := List.mem_map.mp member
  · exact ⟨e, List.mem_of_mem_filter inside, named⟩
  · exact ⟨e, inside, named⟩

variable (c : IsCatalogued a files extents)
include c

theorem foundIn_precedes (s : Statement) (now : Int64) {ids : List UInt32}
    (ascending : ids.Pairwise (· < ·)) (known : ∀ id ∈ ids, ∃ e ∈ extents, e.segment = id) :
    (ids.flatMap (foundIn a files s now)).Pairwise Precedes := by
  have each : ∀ id ∈ ids, ∃ r, foundIn a files s now id = foundOf s now id r ∧
      (packetsOf id r).Pairwise Precedes := by
    intro id member
    obtain ⟨e, inside, rfl⟩ := known id member
    obtain ⟨r, read, short, _⟩ := c.tables e inside
    have whole := (readout_of_readout? read).2
    exact ⟨r, foundIn_of_readout? read s now, packetsOf_ascend whole short e.segment⟩
  refine flatMap_precedes ascending (fun id member => ?_) fun id member p there => ?_
  · obtain ⟨r, same, precedes⟩ := each id member
    rw [same]
    exact precedes.sublist (foundOf_sublist s now id r)
  · obtain ⟨r, same, _⟩ := each id member
    rw [same] at there
    exact segment_of_mem_packetsOf ((foundOf_sublist s now id r).subset there)

/-- A search finds what the statement finds in each segment, up to as many packets as TOP has room
for, unless it takes a segment twice at a time. -/
theorem execute_of_catalogued (options : Options) (s : Statement) (now : Int64)
    (parts : ∀ chunk ∈ chunks (max options.workers 1) (segmentsFor options s extents),
      chunk.Pairwise (· < ·)) :
    ∃ r, execute a files options s now = .ok r ∧
      r.answer = answerOf s ((reported a files extents options s now).map
        (Hit.ofPacket (.ofStatement s))) := by
  have visits : ∀ id ∈ segmentsFor options s extents,
      hitsOf (visit a files s now id).outcomes
        = (foundIn a files s now id).map (Hit.ofPacket (.ofStatement s)) := by
    intro id member
    obtain ⟨e, inside, rfl⟩ := mem_segmentsFor member
    obtain ⟨r, read, short, entries, _⟩ := c.tables e inside
    rw [hitsOf_visit read short entries, foundIn_of_readout? read]
  have hits : hitsOf ((segmentsFor options s extents).flatMap fun id =>
        (visit a files s now id).outcomes)
      = ((segmentsFor options s extents).flatMap (foundIn a files s now)).map
        (Hit.ofPacket (.ofStatement s)) := by
    rw [hitsOf, List.filterMap_flatMap, List.map_flatMap]
    exact List.flatMap_congr visits
  refine ⟨_, execute_eq_ok a files s now c.read options, ?_⟩
  rw [answer_resultOf, searchChunks_eq_pass_of_parts a files s now parts, pass_hits, hits,
    within_map, reported]

end Catalogue

end PacketQuery.Search
