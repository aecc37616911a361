import PacketQuery.Catalog.Database
import PacketQuery.Failure
import PacketQuery.Language.Reference
/-!
An archive: a directory of segments, each in a file named by its number, and a directory of the
tables that catalogue them, one of entries for each segment and one of the segments' extents.
A table is replaced as a whole.
-/

namespace PacketQuery.Catalog

/-- Where segments and tables lie. -/
structure Archive where
  /-- The directory of segments. -/
  segments : String
  /-- The directory of tables. -/
  index : String
  deriving DecidableEq, Repr

namespace Archive

def segmentSuffix : String := ".pcap"

def segmentPath (a : Archive) (id : UInt32) : String :=
  Storage.join a.segments (toString id.toNat ++ segmentSuffix)

def entriesPath (a : Archive) (id : UInt32) : String :=
  Storage.join a.index ("segment_" ++ toString id.toNat ++ ".sqlite")

def extentsPath (a : Archive) : String :=
  Storage.join a.index "master.sqlite"

/-- The number that the name of a segment's file gives. -/
def segmentId? (name : String) : Option UInt32 :=
  let cs := name.toList
  let suffix := segmentSuffix.toList
  let stem := cs.take (cs.length - suffix.length)
  if cs == stem ++ suffix then (Text.unsigned? (UInt32.size - 1) stem).map UInt32.ofNat else none

/-- The numbers of the segments in ascending order, once for every file. -/
def segmentIds (a : Archive) (files : Files) : Except Failure (List UInt32) :=
  match files.list a.segments with
  | .error fault => .error (.io fault)
  | .ok children =>
    .ok (Order.sort (fun i j => compare i.toNat j.toNat)
      (children.filterMap fun (name, _) => segmentId? name))

def openSegment (a : Archive) (files : Files) (id : UInt32) : Except Failure Segment :=
  let path := a.segmentPath id
  match files.resolve path with
  | .error _ => .error (.segment (.notFound path))
  | .ok (.file content) => (Segment.ofBytes path content.data).mapError .segment
  | .ok (.directory _) => .error (.io .noDevice)

/-- The order of offsets as they are stored: as numbers with a sign. -/
def compareOffsets (e f : Entry) : Ordering :=
  compare e.offset.toInt64.toInt f.offset.toInt64.toInt

/-- The entries of a segment, by offset. -/
def entries (a : Archive) (files : Files) (id : UInt32) : Except StoreFault (List Entry) :=
  let path := a.entriesPath id
  if !files.isPresent path then .error (.noEntries id path)
  else
    match Database.read files path "packets" Tables.entries with
    | .error fault => .error (.database fault)
    | .ok rows => .ok (Order.sort compareOffsets rows)

/-- The entries of a segment that have every protocol of `required` and addresses that the
networks admit. -/
def scan (a : Archive) (files : Files) (id : UInt32) (required : Mask)
    (networks : Language.Networks) : Except StoreFault (List Entry) :=
  (a.entries files id).map fun es =>
    es.filter fun e => e.mask.includes required && networks.admits e.source e.destination

/-- The extents of the catalogued segments, by segment. -/
def extents (a : Archive) (files : Files) : Except StoreFault (List Extent) :=
  let path := a.extentsPath
  if !files.isPresent path then .error (.noExtents path)
  else (Database.read files path "master_index" Tables.extents).mapError .database

def putEntries (a : Archive) (files : Files) (id : UInt32) (rows : List Entry) :
    Except StoreFault Files :=
  (Database.write files (a.entriesPath id) ({ · with entries := some rows })).mapError .database

def putExtents (a : Archive) (files : Files) (rows : List Extent) : Except StoreFault Files :=
  let sorted := Order.sort (fun e f => compare e.segment.toNat f.segment.toNat) rows
  (Database.write files a.extentsPath ({ · with extents := some sorted })).mapError .database

end Archive

end PacketQuery.Catalog
