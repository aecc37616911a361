/-!
Why a catalogue could not be read or written.
-/

namespace PacketQuery.Catalog

/-- Why the tables of one file could not be used. -/
inductive DatabaseFault
  /-- The file holds something else. -/
  | notDatabase
  /-- The file holds a part of a database. -/
  | malformed
  /-- The file could not be opened or made. -/
  | cannotOpen (path : String)
  /-- A directory is in the place of the file. -/
  | unreadable
  /-- The location names a machine other than this one. -/
  | foreignHost (name : String)
  /-- A location asks for a mode of the given kind that there is not. -/
  | noMode (kind name : String)
  /-- A location asks for more than the database is opened for. -/
  | refusedMode (name : String)
  /-- A location asks for a file system that there is not. -/
  | noSystem (name : String)
  | readOnly
  /-- A write to the database has not come to its end, and it may only be read. -/
  | unfinishedWrite
  /-- The tables are laid out in a way that came later. -/
  | newerFormat
  | noTable (name : String)
  deriving DecidableEq, Repr

namespace DatabaseFault

def message : DatabaseFault → String
  | notDatabase => "file is not a database"
  | malformed => "database disk image is malformed"
  | cannotOpen path => "unable to open database file: " ++ path
  | unreadable => "disk I/O error"
  | foreignHost name => "invalid uri authority: " ++ name
  | noMode kind name => "no such " ++ kind ++ " mode: " ++ name
  | refusedMode name => "access mode not allowed: " ++ name
  | noSystem name => "no such vfs: " ++ name
  | readOnly | unfinishedWrite => "attempt to write a readonly database"
  | newerFormat => "unsupported file format"
  | noTable name => "no such table: " ++ name

/-- The number and the general wording of the class that a fault belongs to. -/
def code : DatabaseFault → String
  | notDatabase => "Error code 26: File opened that is not a database file"
  | malformed => "Error code 11: The database disk image is malformed"
  | cannotOpen _ => "Error code 14: Unable to open the database file"
  | unreadable => "Error code 266: Error reading from disk"
  | refusedMode _ => "Error code 3: Access permission denied"
  | readOnly => "Error code 8: Attempt to write a readonly database"
  | unfinishedWrite => "Error code 776: Database has hot journal that must be rolled back"
  | foreignHost _ | noMode .. | noSystem _ | newerFormat | noTable _ =>
    "Error code 1: SQL error or missing database"

end DatabaseFault

/-- Why a catalogue could not be read or written. -/
inductive StoreFault
  | database (fault : DatabaseFault)
  | noEntries (segment : UInt32) (path : String)
  | noExtents (path : String)
  deriving DecidableEq, Repr

namespace StoreFault

def message : StoreFault → String
  | database fault => "SQLite error: " ++ fault.message
  | noEntries segment path => "No index for segment " ++ toString segment.toNat ++ " at " ++ path
  | noExtents path => "Master index not found at " ++ path

/-- What lies behind a fault, the nearest first. -/
def causes : StoreFault → List String
  | database fault => [fault.message, fault.code]
  | noEntries .. | noExtents _ => []

end StoreFault

end PacketQuery.Catalog
