import PacketQuery.Catalog.Archive
/-!
Tables as bytes: eight bytes that mark them, then the table of entries and that of extents, each
with the number of its rows and the rows, of a fixed width. Numbers stand with their most
significant byte first. Bytes that are no tables stand for themselves.
-/

namespace PacketQuery.Catalog.TableFile

/-- The first bytes of a file of tables. -/
def mark : Bytes := Text.toUtf8 "PQTABLES"

def entryWidth : Nat := 38

def extentWidth : Nat := 20

def entryBytes (e : Entry) : Bytes :=
  Bytes.ofNatBE 8 e.time.toNat ++ Bytes.ofNatBE 8 e.offset.toNat
    ++ Bytes.ofNatBE 8 e.mask.bits.toNat ++ Bytes.ofNatBE 4 e.destination.toNat
    ++ Bytes.ofNatBE 4 e.source.toNat ++ Bytes.ofNatBE 2 e.headerLength.toNat
    ++ Bytes.ofNatBE 2 e.destinationPort.toNat ++ Bytes.ofNatBE 2 e.sourcePort.toNat

def extentBytes (e : Extent) : Bytes :=
  Bytes.ofNatBE 4 e.segment.toNat ++ Bytes.ofNatBE 8 e.first.toNat
    ++ Bytes.ofNatBE 8 e.last.toNat

@[simp] theorem length_entryBytes (e : Entry) : (entryBytes e).length = entryWidth := by
  simp [entryBytes, entryWidth]

@[simp] theorem length_extentBytes (e : Extent) : (extentBytes e).length = extentWidth := by
  simp [extentBytes, extentWidth]

/-- The number in the `width` bytes from position `start`. -/
def numberAt (row : Bytes) (start width : Nat) : Nat :=
  Bytes.toNatBE (Bytes.slice row start width)

def entryOf (row : Bytes) : Entry where
  time := UInt64.ofNat (numberAt row 0 8)
  offset := UInt64.ofNat (numberAt row 8 8)
  mask := ⟨UInt64.ofNat (numberAt row 16 8)⟩
  destination := UInt32.ofNat (numberAt row 24 4)
  source := UInt32.ofNat (numberAt row 28 4)
  headerLength := UInt16.ofNat (numberAt row 32 2)
  destinationPort := UInt16.ofNat (numberAt row 34 2)
  sourcePort := UInt16.ofNat (numberAt row 36 2)

def extentOf (row : Bytes) : Extent where
  segment := UInt32.ofNat (numberAt row 0 4)
  first := UInt64.ofNat (numberAt row 4 8)
  last := UInt64.ofNat (numberAt row 12 8)

/-- The rows of `width` bytes that `count` times this width make. -/
def rows (width : Nat) : (count : Nat) → Bytes → List Bytes
  | 0, _ => []
  | count + 1, bs => bs.take width :: rows width count (bs.drop width)

/-- A table that is there: a one, the number of its rows, and its rows; or a zero. -/
def tableBytes : Option (List Bytes) → Bytes
  | none => [0]
  | some rows => 1 :: Bytes.ofNatBE 8 rows.length ++ rows.flatten

/-- The rows of the table at the head of bytes, and the bytes after it. -/
def readTable (width : Nat) : Bytes → Option (List Bytes) × Bytes
  | [] => (none, [])
  | mark :: rest =>
    if mark == 0 then (none, rest)
    else
      let body := rest.drop 8
      let count := min (Bytes.toNatBE (rest.take 8)) (body.length / width)
      (some (rows width count body), body.drop (count * width))

def toBytes : Content → Bytes
  | .bytes data => data
  | .tables t =>
    mark ++ tableBytes (t.entries.map (·.map entryBytes))
      ++ tableBytes (t.extents.map (·.map extentBytes))

def ofBytes (bs : Bytes) : Content :=
  if bs.take mark.length == mark then
    let (entries, rest) := readTable entryWidth (bs.drop mark.length)
    let (extents, _) := readTable extentWidth rest
    .tables ⟨entries.map (·.map entryOf), extents.map (·.map extentOf)⟩
  else .bytes bs

end PacketQuery.Catalog.TableFile
