import PacketQuery.Catalog.Archive
import PacketQuery.Language.Eval
import PacketQuery.Language.Grammar
import PacketQuery.Search.Plan
import PacketQuery.Search.Result
/-!
Searching an archive. Segments are taken in chunks of as many as there are workers. The catalogue
offers the packets of a chunk that can match; these are decoded and filtered in batches, in the
order of their places. Under TOP the search ends with the batch in which enough packets have
matched.
-/

namespace PacketQuery.Search

open Catalog (Archive Extent Files Mask)
open PacketQuery.Language (Statement)

/-- How many packets one worker decodes in a batch. -/
def packetsPerWorker : Nat := 256

/-- The place of a packet: its segment and where its record starts. -/
structure Place where
  segment : UInt32
  offset : UInt64
  deriving DecidableEq, Repr

namespace Place

/-- The order of places: by segment, then by offset. -/
def order (p q : Place) : Ordering :=
  (compare p.segment.toNat q.segment.toNat).then (compare p.offset.toNat q.offset.toNat)

/-- The segment's number, an at sign and the offset. -/
def text (p : Place) : String :=
  toString p.segment.toNat ++ "@" ++ toString p.offset.toNat

end Place

/-- Something that kept packets out of a search, and does not end it. -/
inductive Problem
  /-- The entries of a segment cannot be read. -/
  | entries (segment : UInt32) (fault : Catalog.StoreFault)
  /-- A segment cannot be opened. -/
  | unopened (segment : UInt32) (failure : Failure)
  /-- No whole packet starts at a place that the catalogue names. -/
  | noPacket (place : Place)
  deriving DecidableEq, Repr

def Problem.message : Problem → String
  | entries segment fault => "segment " ++ toString segment.toNat ++ ": " ++ fault.message
  | unopened segment failure => "segment " ++ toString segment.toNat ++ ": " ++ failure.message
  | noPacket place =>
    "segment " ++ toString place.segment.toNat ++ ": no packet at offset "
      ++ toString place.offset.toNat

/-- What is kept of a packet that passed. -/
structure Hit where
  /-- Microseconds since the epoch. -/
  time : UInt64
  /-- The values grouped by. -/
  key : List Value
  /-- The inputs that the plan asks for. -/
  inputs : List Value
  deriving Repr

/-- What became of a packet that the catalogue offered. -/
inductive Outcome
  | matched (hit : Hit)
  | rejected
  | unresolved (place : Place)
  deriving Repr

/-- What a search has come to. -/
structure Progress where
  hits : List Hit
  /-- How many packets the catalogue offered. -/
  searched : Nat
  problems : List Problem
  deriving Repr

namespace Progress

def none : Progress :=
  ⟨[], 0, []⟩

/-- One part of a search and the next. -/
def append (p q : Progress) : Progress :=
  ⟨p.hits ++ q.hits, p.searched + q.searched, p.problems ++ q.problems⟩

end Progress

/-- The elements in runs of `size`, the last perhaps shorter. -/
def chunks {α : Type} (size : Nat) (xs : List α) : List (List α) :=
  if _h : xs = [] then []
  else xs.take (size - 1 + 1) :: chunks size (xs.drop (size - 1 + 1))
termination_by xs.length
decreasing_by
  have := List.length_pos_iff.mpr _h
  simp only [List.length_drop]
  omega

/-- The value of a field, null where the packet lacks it. -/
def fieldValue (p : Packet) (name : String) : Value :=
  ((p.field? name).map Value.ofField).getD .null

def Hit.ofPacket (plan : Plan) (p : Packet) : Hit where
  time := p.capture.time
  key := plan.groupBy.map (fieldValue p)
  inputs := plan.inputs.map fun
    | some name => fieldValue p name
    | none => .null

/-- Decodes the packet at a place and filters it. -/
def resolve (plan : Plan) (now : Int64) (opened : List (UInt32 × Segment)) (place : Place) :
    Outcome :=
  let found := do
    let segment ← (opened.find? (·.1 == place.segment)).map (·.2)
    let captured ← segment.packetAt? place.offset.toNat
    some (Packet.ofCaptured Protocol.all segment.linkType place.segment captured)
  match found with
  | none => .unresolved place
  | some p =>
    if plan.filter.all (Language.accepts p now) then .matched (.ofPacket plan p) else .rejected

/-- What is left of the room for matches; absent room has no end. -/
def roomAfter (room : Option Nat) (hits : List Hit) : Option Nat :=
  room.map (· - hits.length)

/-- The hits and problems of a batch, up to the first packet that matches without room. -/
def settle : (room : Option Nat) → List Outcome → List Hit × List Problem
  | _, [] => ([], [])
  | room, .rejected :: rest => settle room rest
  | room, .unresolved place :: rest =>
    let (hits, problems) := settle room rest
    (hits, .noPacket place :: problems)
  | some 0, .matched _ :: _ => ([], [])
  | room, .matched hit :: rest =>
    let (hits, problems) := settle (room.map (· - 1)) rest
    (hit :: hits, problems)

/-- Settles batches one after another while there is room. -/
def settleBatches (outcome : Place → Outcome) :
    (room : Option Nat) → List (List Place) → Progress
  | _, [] => .none
  | room, batch :: batches =>
    let (hits, problems) := settle room (batch.map outcome)
    let done : Progress := ⟨hits, 0, problems⟩
    let left := roomAfter room hits
    -- The batch that fills the room is the last one resolved.
    if left == some 0 then done else done.append (settleBatches outcome left batches)

/-- What a chunk of segments offers: places in order, the segments opened, and the count. -/
structure Offer where
  places : List Place
  opened : List (UInt32 × Segment)
  searched : Nat
  problems : List Problem
  deriving Repr

/-- What one segment offers. A segment is opened only if it offers a packet. -/
def offerOf (a : Archive) (files : Files) (required : Mask) (networks : Language.Networks)
    (id : UInt32) : Offer :=
  match a.scan files id required networks with
  | .error fault => ⟨[], [], 0, [.entries id fault]⟩
  | .ok [] => ⟨[], [], 0, []⟩
  | .ok es =>
    match a.openSegment files id with
    | .error failure => ⟨[], [], es.length, [.unopened id failure]⟩
    | .ok segment => ⟨es.map fun e => ⟨id, e.offset⟩, [(id, segment)], es.length, []⟩

/-- What the segments of a chunk offer together. -/
def offer (a : Archive) (files : Files) (required : Mask) (networks : Language.Networks)
    (ids : List UInt32) : Offer :=
  let offers := ids.map (offerOf a files required networks)
  { places := Order.sort Place.order (offers.flatMap (·.places))
    opened := offers.flatMap (·.opened)
    searched := offers.foldl (fun count o => count + o.searched) 0
    problems := offers.flatMap (·.problems) }

/-- What a search asks for, besides the archive. -/
structure Options where
  /-- How many segments and batches are taken at a time, at least one. -/
  workers : Nat
  /-- Segments that do not meet the interval of the statement are left out. -/
  prune : Bool
  deriving DecidableEq, Repr

/-- Searches chunks of segments one after another while there is room. -/
def searchChunks (a : Archive) (files : Files) (s : Statement) (now : Int64) (workers : Nat) :
    (room : Option Nat) → List (List UInt32) → Progress
  | _, [] => .none
  | room, ids :: rest =>
    if room == some 0 then .none
    else
      let o := offer a files (.ofNames s.protocols) s.networks ids
      let batches := chunks (workers * packetsPerWorker) o.places
      let settled := settleBatches (resolve (.ofStatement s) now o.opened) room batches
      -- The chunk counts with all it offers, also where the room ends in its first batch.
      let done : Progress := ⟨settled.hits, o.searched, o.problems ++ settled.problems⟩
      done.append (searchChunks a files s now workers (roomAfter room settled.hits) rest)

/-- A second as microseconds, from zero to the greatest of 64 bits. -/
def microseconds (seconds : Int64) : UInt64 :=
  UInt64.ofNat (min (seconds.toInt.toNat * 1000000) (UInt64.size - 1))

def segmentsFor (options : Options) (s : Statement) (extents : List Extent) : List UInt32 :=
  let kept : List Extent := match options.prune, s.interval with
    | true, some (first, last) =>
      extents.filter fun extent => extent.overlaps (microseconds first) (microseconds last)
    | _, _ => extents
  kept.map fun extent => extent.segment

/-- The rows of the hits, before they are put into order. -/
def rowsOf (plan : Plan) (hits : List Hit) : List (List Value) :=
  if plan.grouped then
    Rows.groupedRows plan.items plan.groupBy (hits.map fun hit => (hit.key, hit.inputs))
  else hits.map (·.inputs)

/-- The result of a search that has come to its end: rows are sorted, repeats dropped, then TOP
and LIMIT applied. -/
def resultOf (s : Statement) (p : Progress) : Result :=
  let plan := Plan.ofStatement s
  let arranged := plan.arrange (rowsOf plan p.hits)
  let (kept, fingerprints) := if s.distinct && !plan.grouped then Rows.keepFirst [] arranged
    else (arranged, [])
  let rows := Plan.limitRows s.limit (Plan.topRows s.top kept)
  let times := p.hits.map (·.time)
  let result : Result :=
    { matched := p.hits.length
      searched := p.searched
      earliest := times.min?
      latest := times.max?
      columns := plan.columns rows
      rows, fingerprints }
  p.problems.foldl (fun r problem => r.addError problem.message) result

/-- The result of a statement at the moment `now`. -/
def execute (a : Archive) (files : Files) (options : Options) (s : Statement) (now : Int64) :
    Except Failure Result :=
  match a.extents files with
  | .error fault => .error (.store fault)
  | .ok extents =>
    let workers := max options.workers 1
    let ids := chunks workers (segmentsFor options s extents)
    .ok (resultOf s (searchChunks a files s now workers (s.top.map (·.toNat)) ids))

/-- The result of a query text at the moment `now`. -/
def run (a : Archive) (files : Files) (options : Options) (text : String) (now : Int64) :
    Except Failure Result :=
  match (Language.parse now text).1 with
  | .error error => .error (.statement error)
  | .ok s => execute a files options s now

end PacketQuery.Search
