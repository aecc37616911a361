import PacketQuery.Catalog.TableFile
import PacketQuery.Command.Run
import Std.Time.DateTime.Timestamp
/-!
The program: the files that a command line names are read, the command is run on them, and the
tables it has made are written. Segments are looked for under the numbers below 65536.
-/

namespace PacketQuery.Program

open Catalog (Archive Content Files)

/-- The bytes of a file, if it can be read. -/
def bytesAt? (path : String) : IO (Option Bytes) := do
  try
    return some (← IO.FS.readBinFile path).toList
  catch _ => return none

/-- The files with a directory, if there is one. -/
def loadDirectory (files : Files) (path : String) : IO Files := do
  try
    let _ ← IO.FS.realPath path
    return (files.createDirectories path).2
  catch _ => return files

/-- The files with the file at a path, if it can be read. -/
def load (decode : Bytes → Content) (files : Files) (path : String) : IO Files := do
  match ← bytesAt? path with
  | none => return files
  | some data =>
    let files ← loadDirectory files (Storage.directoryOf path)
    return (files.put path (decode data)).toOption.getD files

/-- The files with the database at a path, if it can be read. -/
def loadDatabase (files : Files) (path : String) : IO Files := do
  match Catalog.Database.fileOf? path with
  | none => return files
  | some file => load Catalog.TableFile.ofBytes files file

/-- The numbers under which segments are looked for. -/
def knownIds : List UInt32 :=
  (List.range 65536).map UInt32.ofNat

/-- The files that an action can read. -/
def loadFor : Command.Action → IO Files
  | .fields => return .empty
  | .index a _ => do
    let files ← [a.segments, a.index].foldlM loadDirectory .empty
    let files ← knownIds.foldlM (fun files id => load .bytes files (a.segmentPath id)) files
    let ids := (a.segmentIds files).toOption.getD []
    let files ← ids.foldlM (fun files id => loadDatabase files (a.entriesPath id)) files
    loadDatabase files a.extentsPath
  | .query a _ _ file _ _ _ => do
    let files ← [a.segments, a.index].foldlM loadDirectory .empty
    let files ← file.toList.foldlM (load .bytes) files
    let files ← loadDatabase files a.extentsPath
    let ids := ((a.extents files).toOption.getD []).map (·.segment)
    let files ← ids.foldlM (fun files id => loadDatabase files (a.entriesPath id)) files
    ids.foldlM (fun files id => load .bytes files (a.segmentPath id)) files

/-- Writes the database at a path, if there is one. -/
def saveDatabase (files : Files) (path : String) : IO Unit := do
  if let .ok (.mk (some names) false content) := Catalog.Database.open? files path .create then
    let data := ByteArray.mk (Catalog.TableFile.toBytes content).toArray
    IO.FS.writeBinFile (Text.joined "/" names) data

def saveTables (a : Archive) (files : Files) : IO Unit := do
  if files.isPresent a.index then
    IO.FS.createDirAll a.index
    for id in (a.segmentIds files).toOption.getD [] do
      saveDatabase files (a.entriesPath id)
    saveDatabase files a.extentsPath

/-- The seconds since the epoch. -/
def present : IO Int64 := do
  return Int64.ofInt (← Std.Time.Timestamp.now).toSecondsSinceUnixEpoch.val

/-- The number of workers of any machine. The order of results does not depend on it. -/
def standardWorkers : Nat := 4

/-- Runs an action on the files it names. -/
def perform (action : Command.Action) : IO Command.Outcome := do
  let (outcome, files) := Command.perform (← loadFor action) (← present) standardWorkers action
  if let .index a _ := action then saveTables a files
  return outcome

end PacketQuery.Program

open PacketQuery in
def main (words : List String) : IO UInt32 := do
  let outcome ← match Command.Arguments.parse words with
    | .error fault => pure (Command.Outcome.ofUsage fault)
    | .ok arguments => Program.perform arguments.action
  IO.print outcome.output
  IO.eprint outcome.messages
  return UInt32.ofNat outcome.code
