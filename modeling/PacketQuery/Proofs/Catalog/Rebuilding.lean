import PacketQuery.Frame.Assembly
import PacketQuery.Proofs.Catalog.Building
import PacketQuery.Proofs.Catalog.Relisting
import PacketQuery.Segment.Writer
/-!
A build that is made again changes nothing and reports the same: each segment comes to what it came
to before, a table that holds its entries is written as it is, and no name that a build writes is
taken for a segment. What a build leaves of each table depends on its own segment alone.
-/

namespace PacketQuery.Catalog

open Database (Settled tableNames tablesBefore)
open Storage (bind_eq_ok join mapError_eq_ok)
open Storage.FileTree (Grown SameBut)

namespace Database

variable {files files' : Files} {dir name : String} {place : List String}
  (d : IsTableDirectory files dir place) (t : IsTableFile name)
include d t

/-- A write that changes none of the tables leaves the files as they are. -/
theorem write_of_settled {tables : Tables} (settled : Settled files dir place name tables)
    {change : Tables → Tables} (same : change tables = tables) :
    write files (join dir name) change = .ok files := by
  have before : tablesBefore files (join dir name) = .ok tables := by
    rw [tablesBefore_join d t, if_pos settled.fits, settled.table]
    rfl
  have here := Storage.FileTree.kind?_eq_file settled.table
  rw [write_eq d t, before]
  simp only [Except.map, same, Storage.FileTree.withNode_self here,
    Storage.FileTree.withoutFile_of_no_file settled.journal]

variable (d' : IsTableDirectory files' dir place)
  (same : ∀ other ∈ tableNames name,
    files'.kind? (place ++ [other]) = files.kind? (place ++ [other]))
include d' same

end Database

namespace Archive

variable {a : Archive} {files files' : Files} {segments index : List String}

/-! ### One segment -/

theorem sameListing_buildSegment (d : IsTableDirectory files a.index index) {id : UInt32}
    {summary : Summary} (built : a.buildSegment files id = .ok (summary, files')) :
    SameListing files files' := by
  simp only [buildSegment, putEntries, bind_eq_ok, mapError_eq_ok] at built
  obtain ⟨_, _, _, _, written, result, same⟩ := built
  cases same
  exact sameListing_write d (isTableFile_entriesName id) (getLast?_entriesName id) result

/-- A segment whose table holds its entries is catalogued without a change. -/
theorem buildSegment_again (d : IsTableDirectory files a.index index) {id : UInt32} {r : Readout}
    (found : a.outcome files id = .ok r) (holds : a.Holds files index id r) :
    a.buildSegment files id = .ok (summaryOf id r, files) := by
  obtain ⟨opened, packets, _⟩ := outcome_eq_ok.mp found
  obtain ⟨tables, rows, settled⟩ := holds
  have written : Database.write files (join a.index (entriesName id))
      ({ · with entries := some (entriesOf id r) }) = .ok files :=
    Database.write_of_settled d (isTableFile_entriesName id) settled (by rw [← rows])
  have put : a.putEntries files id (entriesOf id r) = .ok files :=
    congrArg (Except.mapError StoreFault.database) written
  exact buildSegment_of_put opened packets put

/-! ### A list of segments -/

theorem sameListing_buildEach (d : IsTableDirectory files a.index index) (ids : List UInt32) :
    SameListing files (a.buildEach files ids).2 := by
  induction ids generalizing files with
  | nil => exact .refl files
  | cons id ids ih =>
    unfold buildEach
    split
    next built =>
      have one := sameListing_buildSegment d built
      exact one.trans (ih (d.mono one.directories))
    next => exact ih d

/-- Segments whose tables hold their entries are catalogued without a change. -/
theorem buildEach_again (d : IsTableDirectory files a.index index) {ids : List UInt32}
    (holds : ∀ id ∈ ids, ∀ r, a.outcome files id = .ok r → a.Holds files index id r) :
    a.buildEach files ids = (reportOf (a.outcome files) ids, files) := by
  induction ids with
  | nil => rfl
  | cons id ids ih =>
    obtain ⟨here, rest⟩ := List.forall_mem_cons.mp holds
    cases found : a.outcome files id with
    | error failure =>
      rw [buildEach_of_error (buildSegment_of_error d found), ih rest]
      simp [reportOf, found, Except.toOption]
    | ok r =>
      rw [buildEach_of_ok (buildSegment_again d found (here r found)), ih rest]
      simp [reportOf, found, Except.toOption]

/-! ### The whole archive -/

/-- A build whose first steps change nothing ends with the writing of the extents. -/
theorem buildAll_of_unchanged (leads : files.Leads a.index index) {ids : List UInt32}
    {report : BuildReport} (listed : a.segmentIds files = .ok ids)
    (same : a.buildEach files ids = (report, files)) :
    a.buildAll files = (match a.putExtents files (report.built.filterMap (·.extent)) with
      | .error fault => (.error (.store fault), files)
      | .ok written => (.ok report, written)) := by
  have prepared := Storage.FileTree.createDirectories_of_leads leads
  cases put : a.putExtents files (report.built.filterMap (·.extent)) with
  | error fault => simp only [buildAll, prepared, listed, same, put]
  | ok written => simp only [buildAll, prepared, listed, same, put]

theorem segmentIds_of_sameListing (same : SameListing files files')
    {children : List (String × Files)} (listed : files.list a.segments = .ok children) :
    a.segmentIds files' = .ok (listedIds children) := by
  obtain ⟨children', listed', numbers⟩ := same.list_eq listed
  rw [segmentIds_eq listed', listedIds, numbers, listedIds]

/-- A build lists the segments, catalogues each and writes the extents, which changes no more than
their table, or fails there. -/
structure Ends (a : Archive) (made : Files) (ids : List UInt32) (index : List String)
    (done : Except Failure BuildReport × Files) : Prop where
  others : SameBut index (tableNames extentsName) (a.buildEach made ids).2 done.2
  listing : SameListing (a.buildEach made ids).2 done.2
  ends : done = (match a.putExtents done.2
      ((reportOf (a.outcome made) ids).built.filterMap (·.extent)) with
    | .error fault => (.error (.store fault), done.2)
    | .ok written => (.ok (reportOf (a.outcome made) ids), written))

namespace Ends

variable {ids : List UInt32} {done : Except Failure BuildReport × Files}
  (l : a.LiesAt files segments index) (e : a.Ends files ids index done)
include l e

theorem sameBut :
    SameBut index (changedNames (a.cataloguedOf files ids) ++ tableNames extentsName) files
      done.2 :=
  (buildEach_outcomes l ids).2.1.trans e.others

theorem outcome (id : UInt32) : a.outcome done.2 id = a.outcome files id := by
  obtain ⟨_, same, kept, _⟩ := buildEach_outcomes l ids
  have table := notMem_tableNames (getLast?_entriesName id) (entriesName_ne_extentsName id)
  rw [outcome_of_sameBut (l.mono same.directories) e.others (segmentName_notMem (by decide) id)
    table, kept]

theorem holds {id : UInt32} (member : id ∈ ids) {r : Readout}
    (found : a.outcome files id = .ok r) : a.Holds done.2 index id r := by
  obtain ⟨_, _, _, holds⟩ := buildEach_outcomes l ids
  refine (holds id member r found).mono e.others ?_ ?_
  · exact notMem_tableNames (getLast?_entriesName id) (entriesName_ne_extentsName id)
  · exact journal_notMem_tableNames (by decide) (entriesName_ne_extentsName id)

/-- A second build finds the tables as it would write them. -/
theorem again {children : List (String × Files)} (listed : files.list a.segments = .ok children)
    (same : ids = listedIds children) : a.buildAll done.2 = done := by
  subst same
  have l' := l.mono (e.sameBut l).directories
  have listing := (sameListing_buildEach l.index (listedIds children)).trans e.listing
  have outcomes : a.outcome done.2 = a.outcome files := funext (e.outcome l)
  have each : a.buildEach done.2 (listedIds children)
      = (reportOf (a.outcome files) (listedIds children), done.2) := by
    rw [buildEach_again l'.index fun id member r found =>
      e.holds l member ((e.outcome l id).symm.trans found), outcomes]
  rw [buildAll_of_unchanged l'.index.leads (segmentIds_of_sameListing listing listed) each]
  exact e.ends.symm

end Ends

/-! ### What a build leaves of each table -/

section Prepared

variable {made : Files} (local_ : ¬ "file:".toList <+: a.index.toList)
  (prepared : files.createDirectories a.index = (.ok (), made))
include local_ prepared

end Prepared

section Sample

def sampleArchive : Archive :=
  ⟨"segments", "index"⟩

/-- A segment with two datagrams, the later one first. -/
def sampleSegment : Bytes :=
  let frame := Assembly.udpFrame [10, 0, 0, 2] [10, 0, 0, 3] 3000 2000 []
  Segment.Draft.toBytes { packets := [(5, 0, frame), (1, 0, frame)] }

/-- An entry that no build has made. -/
def sampleEntry : Entry :=
  ⟨9, 99, .empty, 1, 2, 3, 4, 5⟩

/-- A segment that can be read, one that cannot, and tables of something else for both and for one
that is missing. -/
def sampleFiles : Files :=
  let stale : Files := .file (.tables ⟨some [sampleEntry], none⟩)
  .directory [("segments", .directory [("1.pcap", .file (.bytes sampleSegment)),
      ("2.pcap", .file (.bytes [1, 2, 3]))]),
    ("index", .directory [("segment_1.sqlite", stale), ("segment_2.sqlite", stale),
      ("segment_3.sqlite", stale), ("master.sqlite", .file (.tables ⟨none, some [⟨3, 9, 9⟩]⟩))])]

end Sample

end Archive

end PacketQuery.Catalog
