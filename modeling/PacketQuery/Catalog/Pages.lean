import PacketQuery.Catalog.Entry
import PacketQuery.Catalog.Fault
import PacketQuery.Text.Utf8
/-!
The file of a database as pages. The first page starts with a mark and the sizes and versions that
the file keeps to, and holds the names of the tables; each table, and each index on it, is a tree
of pages of its own.
-/

namespace PacketQuery.Catalog.Pages

def size : Nat := 4096

def sizes : List Nat :=
  [512, 1024, 2048, 4096, 8192, 16384, 32768, 65536]

/-- The first bytes of a database. -/
def mark : Bytes :=
  Text.toUtf8 "SQLite format 3" ++ [0]

/-- The shares of a page that rows may take. -/
def shares : Bytes := [0x40, 0x20, 0x20]

/-- The first page, without what changes from write to write: the mark, the sizes and versions, and
the number of the version that wrote the file. -/
def first : Bytes :=
  mark ++ [0x10, 0x00, 1, 1, 0] ++ shares ++ List.replicate 72 0 ++ [0x00, 0x2E, 0x7A, 0x70]
    ++ List.replicate (size - 100) 0

/-- The number in `width` bytes from position `start`, those past the end being zero. -/
def numberAt (data : Bytes) (start width : Nat) : Nat :=
  Bytes.toNatBE ((List.range width).map fun i => data.byte (start + i))

/-- The size of a page that the first page gives, where 1 stands for 65536. -/
def sizeOf (data : Bytes) : Nat :=
  numberAt data 16 1 * 256 + numberAt data 17 1 * 65536

/-- The number of pages: that given by the first page, unless it is of an earlier write, and else
that of the pages begun. -/
def countOf (data : Bytes) : Nat :=
  let given := numberAt data 28 4
  if given == 0 || numberAt data 24 4 != numberAt data 92 4 then
    (data.length + sizeOf data - 1) / sizeOf data
  else given

/-- Why bytes are no database that can be used. At most one byte is a database without tables, and
so is a first page that names none. -/
def faultOf? (data : Bytes) : Option DatabaseFault :=
  if data.length ≤ 1 then none
  else if data.take mark.length != mark || 2 < numberAt data 19 1
      || (data.drop 21).take shares.length != shares || !sizes.contains (sizeOf data) then
    some .notDatabase
  else if data.length + sizeOf data ≤ countOf data * sizeOf data then some .malformed
  else if sizeOf data < 480 + numberAt data 20 1 then some .notDatabase
  else if 4 < numberAt data 47 1 then some .newerFormat
  else if numberAt data 100 1 == 13 && numberAt data 103 2 == 0 then none
  else some .malformed

/-- The bytes that a number takes in a row. Zero and one take none. -/
def numberWidth (n : Int64) : Nat :=
  let n := n.toInt
  let fits := fun (limit : Int) => -limit ≤ n && n < limit
  if n == 0 || n == 1 then 0
  else if fits 128 then 1
  else if fits 32768 then 2
  else if fits 8388608 then 3
  else if fits 2147483648 then 4
  else if fits 140737488355328 then 6
  else 8

/-- The bytes of a count below 16384, with seven bits in each. -/
def countWidth (n : Nat) : Nat :=
  if n < 128 then 1 else 2

/-- The bytes of the row of number `id` in the tree of its table. -/
def rowWidth (id : Nat) (row : List Int64) : Nat :=
  let body := row.length + 2 + (row.map numberWidth).foldl (· + ·) 0
  countWidth body + countWidth id + body

/-- The bytes that a row of number `id` takes in an index on some of its numbers. -/
def keyWidth (id : Nat) (key : List Int64) : Nat :=
  let numbers := key ++ [Int64.ofNat id]
  1 + (numbers.length + 1 + (numbers.map numberWidth).foldl (· + ·) 0)

/-- The pages of a tree whose items have the given widths. Each takes two bytes more, and a page
eight. In an index, the item that a page has no room for goes up to the page above. -/
def treeCount (index : Bool) (widths : List Nat) : Nat :=
  let room := size - 8
  let (leaves, _) := widths.foldl (fun (leaves, left) width =>
    if width + 2 ≤ left then (leaves, left - (width + 2))
    else (leaves + 1, if index then room else room - (width + 2))) (1, room)
  if leaves == 1 then 1 else leaves + 1

/-- The pages of a table of rows and of its indices, each on the numbers at some positions. -/
def tableCount (rows : List (List Int64)) (indices : List (List Nat)) : Nat :=
  let numbered := rows.zipIdx 1
  let keys := indices.map fun positions =>
    treeCount true (numbered.map fun (row, id) => keyWidth id (positions.map (row.getD · 0)))
  treeCount false (numbered.map fun (row, id) => rowWidth id row) + keys.foldl (· + ·) 0

/-- The pages of a table of entries, which has indices on the source, the destination and the
mask. -/
def entriesCount (rows : List Entry) : Nat :=
  tableCount (rows.map fun e =>
    [e.time.toInt64, e.offset.toInt64, e.mask.bits.toInt64, e.destination.toUInt64.toInt64,
      e.source.toUInt64.toInt64, e.headerLength.toUInt64.toInt64,
      e.destinationPort.toUInt64.toInt64, e.sourcePort.toUInt64.toInt64]) [[4], [3], [2]]

/-- The pages of a table of extents, which has an index on the times. -/
def extentsCount (rows : List Extent) : Nat :=
  tableCount (rows.map fun e =>
    [e.first.toInt64, e.last.toInt64, e.segment.toUInt64.toInt64]) [[0, 1]]

end PacketQuery.Catalog.Pages
