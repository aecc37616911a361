import PacketQuery.Catalog.Location
import PacketQuery.Catalog.Pages
import PacketQuery.Storage.FileTree
/-!
Databases: files that hold a table of entries, one of extents, or both. A table is read and
replaced as a whole. A journal beside the file tells of a write that has not come to its end.
-/

namespace PacketQuery.Catalog

/-- The tables of a database. -/
structure Tables where
  entries : Option (List Entry)
  extents : Option (List Extent)
  deriving DecidableEq, Repr

namespace Tables

def empty : Tables :=
  ⟨none, none⟩

/-- The pages of a file with the tables. -/
def pageCount (t : Tables) : Nat :=
  1 + (t.entries.map Pages.entriesCount).getD 0 + (t.extents.map Pages.extentsCount).getD 0

end Tables

inductive Content
  | bytes (data : Bytes)
  | tables (tables : Tables)
  deriving DecidableEq, Repr

/-- Directories and files with bytes and tables. -/
abbrev Files := Storage.FileTree Content

namespace Content

/-- The bytes of a file, of which tables show their first page. -/
def data : Content → Bytes
  | bytes data => data
  | tables _ => Pages.first

/-- A database without pages. -/
def isBlank (content : Content) : Bool :=
  content.data.length ≤ 1

/-- The tables of a file, if it is a database. -/
def tablesOf : Content → Except DatabaseFault Tables
  | bytes data =>
    match Pages.faultOf? data with
    | some fault => .error fault
    | none => .ok .empty
  | tables t => .ok t

/-- A content cut, or filled with zeros, to `length` bytes. Tables stay where each of their pages
is left in part; what follows the pages is not read. -/
def resized (content : Content) (length : Nat) : Content :=
  let cut := bytes (content.data.take length ++ List.replicate (length - content.data.length) 0)
  match content with
  | bytes _ => cut
  | tables t => if (t.pageCount - 1) * Pages.size < length then content else cut

end Content

structure Database where
  /-- The names of its file; absent for one that is in no file on disk. -/
  file : Option (List String)
  /-- Nothing may be written. -/
  readOnly : Bool
  content : Content
  deriving DecidableEq, Repr

namespace Database

def maxPathLength : Nat := 504

/-- The bytes of a path of names, with a slash before each. -/
def pathLength (names : List String) : Nat :=
  (names.filter (· != "/")).foldl (fun length name => length + 1 + name.utf8ByteSize) 0

/-- The names of the file at a path. They lead to a file that is there or could be made. -/
def namesOf? (files : Files) (path : String) : Option (List String) :=
  match files.shortened path with
  | .ok names =>
    if names == ["/"] || maxPathLength < pathLength names then none else some names
  | .error _ => none

/-- The content of the file at the end of names. A missing file is empty where one may be made. A
directory can be opened to be read, and then gives no bytes. -/
def contentAt (files : Files) (path : String) (names : List String) (access : Access) :
    Except DatabaseFault Content :=
  match files.node? names, access with
  | some (.file content), _ => .ok content
  | some (.directory _), .readOnly => .error .unreadable
  | none, .create =>
    match files.node? names.dropLast with
    | some (.directory _) => .ok (.bytes [])
    | _ => .error (.cannotOpen path)
  | _, _ => .error (.cannotOpen path)

/-- The names of the journal beside a file. -/
def journalOf (names : List String) : List String :=
  names.dropLast ++ names.getLast?.toList.map (· ++ "-journal")

/-- A journal tells of a write to the file that has not come to its end: the file has pages, and the
journal does not start with a zero. -/
def isUnfinished (files : Files) (names : List String) (content : Content) : Bool :=
  match files.node? (journalOf names) with
  | some (.file journal) => !content.isBlank && journal.data.byte 0 != 0
  | _ => false

/-- Opens the database at the location that `path` writes. One that may only be read cannot be
brought back to where an unfinished write began. -/
def open? (files : Files) (path : String) (access : Access) : Except DatabaseFault Database := do
  let location ← Location.ofText path
  let settings ← location.settings access
  let readOnly := location.isReadOnly settings
  -- No file is looked for, so the path need not be one.
  if location.isTransient settings then return ⟨none, readOnly, .bytes []⟩
  match namesOf? files location.path with
  | none => throw (.cannotOpen path)
  | some names =>
    let content ← contentAt files path names settings.access
    if readOnly && !location.isImmutable && isUnfinished files names content then
      throw .unfinishedWrite
    return ⟨some names, readOnly, content⟩

/-- The rows of a table, which `pick` takes from the tables of the database. -/
def read {α : Type} (files : Files) (path table : String) (pick : Tables → Option (List α)) :
    Except DatabaseFault (List α) := do
  let database ← open? files path .readOnly
  match pick (← database.content.tablesOf) with
  | some rows => return rows
  | none => throw (.noTable table)

/-- The files with the tables of a database changed. A journal beside it is gone afterwards. -/
def write (files : Files) (path : String) (change : Tables → Tables) :
    Except DatabaseFault Files := do
  let database ← open? files path .create
  -- Of a database that is both unreadable and read-only, it is the former that is told.
  let tables ← database.content.tablesOf
  if database.readOnly then throw .readOnly
  match database.file with
  | none => return files
  | some names =>
    let written : Files := .withNode (.file (.tables (change tables))) files names
    return written.withoutFile (journalOf names)

/-- The path of the file that a location names, if the database is in one on disk. -/
def fileOf? (path : String) : Option String := do
  let location ← (Location.ofText path).toOption
  let settings ← (location.settings .create).toOption
  if location.isTransient settings then none else some location.path

end Database

end PacketQuery.Catalog
