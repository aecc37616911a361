import PacketQuery.Frame.Assembly
import PacketQuery.Proofs.Search.Visit
import PacketQuery.Segment.Writer
/-!
A search with any number of workers gives the answer of one pass: segment by segment in the order
of their numbers, packet by packet in the order of offsets, up to the packet that takes the last of
the room that TOP leaves.
-/

namespace PacketQuery.Search

open Catalog (Archive Entry Extent Files Mask)
open PacketQuery.Language (Statement)

/-- One segment after another and packet by packet, up to the one that takes the last room. -/
def pass (visit : UInt32 → Visit) : (room : Option Nat) → List UInt32 → Progress
  | _, [] => .none
  | room, id :: ids =>
    if room == some 0 then .none
    else
      let found := walk room (visit id).outcomes
      let done : Progress := ⟨found.1, (visit id).searched, (visit id).problems ++ found.2⟩
      done.append (pass visit (roomAfter room found.1) ids)

/-- The part of a result that the matching packets make. -/
structure Answer where
  matched : Nat
  earliest : Option UInt64
  latest : Option UInt64
  columns : List Column
  rows : List (List Value)
  fingerprints : List String

def Result.answer (r : Result) : Answer :=
  ⟨r.matched, r.earliest, r.latest, r.columns, r.rows, r.fingerprints⟩

/-- What hits come to: rows or groups are sorted and cut to the columns, repeats dropped, then TOP
and LIMIT applied. -/
def answerOf (s : Statement) (hits : List Hit) : Answer :=
  let plan := Plan.ofStatement s
  let sorted := Order.sort (Plan.compareRows plan.orderKeys) (rowsOf plan hits)
  let shown := sorted.map fun row => row.take plan.items.length
  let kept := if s.distinct && !plan.grouped then Rows.keepFirst [] shown else (shown, [])
  let rows := Plan.limitRows s.limit (Plan.topRows s.top kept.1)
  { matched := hits.length
    earliest := (hits.map (·.time)).min?
    latest := (hits.map (·.time)).max?
    columns := plan.columns rows
    rows, fingerprints := kept.2 }

section Result

theorem answer_addErrors (problems : List Problem) (r : Result) :
    (problems.foldl (fun r problem => r.addError problem.message) r).answer = r.answer := by
  induction problems generalizing r with
  | nil => rfl
  | cons problem rest ih => exact ih _

theorem answer_resultOf (s : Statement) (p : Progress) :
    (resultOf s p).answer = answerOf s p.hits := by
  rw [resultOf, answer_addErrors]
  rfl

theorem searched_addErrors (problems : List Problem) (r : Result) :
    (problems.foldl (fun r problem => r.addError problem.message) r).searched = r.searched := by
  induction problems generalizing r with
  | nil => rfl
  | cons problem rest ih => exact ih _

theorem searched_resultOf (s : Statement) (p : Progress) :
    (resultOf s p).searched = p.searched := by
  rw [resultOf, searched_addErrors]

end Result

section Pass

variable (visit : UInt32 → Visit)

@[simp] theorem pass_nil (room : Option Nat) : pass visit room [] = .none := rfl

theorem pass_used (ids : List UInt32) : pass visit (some 0) ids = .none := by
  cases ids <;> rfl

theorem pass_cons {room : Option Nat} (left : room ≠ some 0) (id : UInt32) (ids : List UInt32) :
    pass visit room (id :: ids) =
      Progress.append
        ⟨(walk room (visit id).outcomes).1, (visit id).searched,
          (visit id).problems ++ (walk room (visit id).outcomes).2⟩
        (pass visit (roomAfter room (hitsOf (visit id).outcomes)) ids) := by
  rw [pass, if_neg (by simpa using left)]
  simp only [walk_hits, roomAfter_within]

theorem pass_hits (ids : List UInt32) (room : Option Nat) :
    (pass visit room ids).hits
      = within room (hitsOf (ids.flatMap fun id => (visit id).outcomes)) := by
  induction ids generalizing room with
  | nil => cases room <;> simp [Progress.none]
  | cons id ids ih =>
    by_cases used : room = some 0
    · simp [used, pass_used, Progress.none]
    · rw [pass_cons visit used, List.flatMap_cons, hitsOf_append, within_append, ← ih, ← walk_hits]
      rfl

end Pass

section Chunks

variable (a : Archive) (files : Files) (s : Statement) (now : Int64)

def chunkOutcomes (ids : List UInt32) : List Outcome :=
  (chunkOffer a files s ids).places.map
    (resolve (.ofStatement s) now (chunkOffer a files s ids).opened)

theorem searchChunks_hits (workers : Nat) (chunks : List (List UInt32)) (room : Option Nat) :
    (searchChunks a files s now workers room chunks).hits
      = within room (hitsOf (chunks.flatMap (chunkOutcomes a files s now))) := by
  -- the room that a chunk leaves is what its matches, not only its hits, leave
  induction chunks generalizing room with
  | nil => cases room <;> simp [searchChunks, Progress.none]
  | cons ids rest ih =>
    rw [searchChunks, List.flatMap_cons, hitsOf_append, within_append]
    split
    next used => simp [eq_of_beq used, Progress.none]
    next left =>
      simp only [Progress.append, settleBatches_hits, flatten_chunks, roomAfter_within, ih]
      rfl

variable {ids : List UInt32}

theorem searchChunks_eq_pass_of_parts {size : Nat}
    (parts : ∀ chunk ∈ chunks size ids, chunk.Pairwise (· < ·)) (workers : Nat)
    (room : Option Nat) :
    (searchChunks a files s now workers room (chunks size ids)).hits
      = (pass (visit a files s now) room ids).hits := by
  have each : ∀ chunk ∈ chunks size ids, chunkOutcomes a files s now chunk
      = chunk.flatMap fun id => (visit a files s now id).outcomes :=
    fun chunk member => map_resolve_places a files s now (parts chunk member)
  have outcomes : (chunks size ids).flatMap (chunkOutcomes a files s now)
      = ids.flatMap fun id => (visit a files s now id).outcomes := by
    rw [List.flatMap_congr each, ← List.flatMap_assoc, List.flatMap_id', flatten_chunks]
  rw [searchChunks_hits, outcomes, pass_hits]

theorem pairwise_of_mem_chunks {order : UInt32 → UInt32 → Prop} (pairwise : ids.Pairwise order)
    {size : Nat} {chunk : List UInt32} (member : chunk ∈ chunks size ids) :
    chunk.Pairwise order := by
  have part := List.sublist_flatten_of_mem member
  rw [flatten_chunks] at part
  exact pairwise.sublist part

end Chunks

theorem segmentsFor_increasing {extents : List Extent}
    (increasing : extents.Pairwise fun e f => e.segment < f.segment) (options : Options)
    (s : Statement) : (segmentsFor options s extents).Pairwise (· < ·) := by
  unfold segmentsFor
  rw [List.pairwise_map]
  split
  next => exact increasing.filter _
  next => exact increasing

/-- A search takes every segment, unless it prunes by an interval. -/
theorem segmentsFor_unpruned {options : Options} {s : Statement}
    (unpruned : options.prune = false ∨ s.interval = none) (extents : List Extent) :
    segmentsFor options s extents = extents.map (·.segment) := by
  unfold segmentsFor
  rcases unpruned with off | none
  · rw [off]
  · rw [none]
    cases options.prune <;> rfl

section Sample

def sampleArchive : Archive :=
  ⟨"segments", "index"⟩

/-- A segment with one datagram. -/
def sampleSegment (port : UInt16) : Bytes :=
  Segment.Draft.toBytes
    { packets := [(1, 0, Assembly.udpFrame [10, 0, 0, 2] [10, 0, 0, 3] port 2000 [])] }

/-- The entry of the first packet of a segment. -/
def sampleFirst : Entry :=
  ⟨1000000, 24, .ofNames ["ETHERNET", "IPV4", "UDP"], 0x0A000003, 0x0A000002, 42, 2000, 1000⟩

/-- Segments numbered from 1, and the entries of each, if it is catalogued. -/
def sampleFiles (segments : List (Option Bytes × Option (List Entry))) : Files :=
  let numbered := segments.zipIdx 1
  let table (name : String) (tables : Catalog.Tables) :=
    (name ++ ".sqlite", Storage.FileTree.file (Catalog.Content.tables tables))
  let captures := numbered.filterMap fun (segment, id) => segment.1.map fun data =>
    (toString id ++ ".pcap", Storage.FileTree.file (Catalog.Content.bytes data))
  let entries := numbered.filterMap fun (segment, id) => segment.2.map fun rows =>
    table ("segment_" ++ toString id) ⟨some rows, none⟩
  let extents := numbered.map fun (_, id) => ⟨UInt32.ofNat id, 1000000, 1000000⟩
  .directory
    [("segments", .directory captures),
      ("index", .directory (table "master" ⟨none, some extents⟩ :: entries))]

def sampleStatement : Statement where
  distinct := false
  projection := .items [.field "udp.sport"]
  sources := ["a"]
  filter := none
  groupBy := []
  orderBy := []
  protocols := ["UDP"]
  networks := {}
  top := none
  limit := none
  interval := none

/-- One datagram in each of two segments. -/
def samplePair : Files :=
  sampleFiles [(some (sampleSegment 3000), some [sampleFirst]),
    (some (sampleSegment 1000), some [sampleFirst])]

theorem extents_samplePair :
    sampleArchive.extents samplePair = .ok [⟨1, 1000000, 1000000⟩, ⟨2, 1000000, 1000000⟩] := by
  rfl

end Sample

end PacketQuery.Search
