import PacketQuery.Catalog.Archive
/-!
Cataloguing an archive. Each segment that can be read to its end gets a new table of entries; one
that cannot keeps the table that it had. Then the extents of those catalogued are written.
-/

namespace PacketQuery.Catalog

structure Summary where
  segment : UInt32
  packets : Nat
  /-- Absent for a segment without packets. -/
  extent : Option Extent
  deriving DecidableEq, Repr

structure BuildReport where
  built : List Summary
  /-- The segments that could not be catalogued, with the reason. -/
  failed : List (UInt32 × Failure)
  deriving DecidableEq, Repr

def BuildReport.packets (report : BuildReport) : Nat :=
  report.built.foldl (fun count summary => count + summary.packets) 0

namespace Archive

/-- Catalogues one segment. -/
def buildSegment (a : Archive) (files : Files) (id : UInt32) :
    Except Failure (Summary × Files) := do
  let segment ← a.openSegment files id
  let rows ← (Entry.ofSegment Protocol.lower id segment).mapError Failure.segment
  let files ← (a.putEntries files id rows).mapError Failure.store
  return (⟨id, rows.length, Extent.ofEntries? id rows⟩, files)

/-- Catalogues the segments of a list one after another. -/
def buildEach (a : Archive) (files : Files) : List UInt32 → BuildReport × Files
  | [] => (⟨[], []⟩, files)
  | id :: ids =>
    match a.buildSegment files id with
    | .ok (summary, written) =>
      let (report, last) := a.buildEach written ids
      (⟨summary :: report.built, report.failed⟩, last)
    | .error failure =>
      let (report, last) := a.buildEach files ids
      (⟨report.built, (id, failure) :: report.failed⟩, last)

/-- Catalogues every segment and writes the extents. The directory of tables is made first, and
stays where the rest fails. -/
def buildAll (a : Archive) (files : Files) : Except Failure BuildReport × Files :=
  match files.createDirectories a.index with
  | (.error fault, files) => (.error (.io fault), files)
  | (.ok (), files) =>
    match a.segmentIds files with
    | .error failure => (.error failure, files)
    | .ok ids =>
      let (report, files) := a.buildEach files ids
      match a.putExtents files (report.built.filterMap (·.extent)) with
      | .error fault => (.error (.store fault), files)
      | .ok files => (.ok report, files)

end Archive

end PacketQuery.Catalog
