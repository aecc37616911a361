import PacketQuery.Catalog.Build
import PacketQuery.Proofs.Catalog.Listing
import PacketQuery.Proofs.Segment.Records
/-!
What a build leaves behind: a new table for every segment that can be read to its end and whose
table can be written, and the extents of those that have packets. The tables of other segments
stay, but no extent leads to them.
-/

namespace PacketQuery.Catalog

open Database (Settled tableNames tablesBefore)
open Storage (bind_eq_ok join mapError_eq_ok)
open Storage.FileTree (SameBut)

/-- The packets of a segment with what its header says. -/
abbrev Readout := Segment × List Captured

/-- The entries of the packets of a segment. -/
def entriesOf (id : UInt32) (r : Readout) : List Entry :=
  r.2.map fun p => .ofPacket (.ofCaptured Protocol.lower r.1.linkType id p)

theorem ofSegment_eq (id : UInt32) (s : Segment) :
    Entry.ofSegment Protocol.lower id s = s.packets.map fun cs => entriesOf id (s, cs) :=
  mapM_map _ s.records

namespace Archive

/-- Where the directories of an archive lie. -/
structure LiesAt (a : Archive) (files : Files) (segments index : List String) : Prop where
  segments : files.Leads a.segments segments
  index : IsTableDirectory files a.index index

theorem LiesAt.mono {a : Archive} {files files' : Files} {segments index : List String}
    (l : a.LiesAt files segments index)
    (kept : ∀ {names}, files.IsDirectory names → files'.IsDirectory names) :
    a.LiesAt files' segments index :=
  ⟨l.segments.mono kept, l.index.mono kept⟩

/-- A segment with all its packets, if it opens and can be read to its end. -/
def readout? (a : Archive) (files : Files) (id : UInt32) : Option Readout :=
  match a.openSegment files id with
  | .error _ => none
  | .ok segment => segment.packets.toOption.map (segment, ·)

/-- What a build catalogues of a segment: all or, where its table cannot be written, nothing. -/
def stored? (a : Archive) (files : Files) (id : UInt32) : Option Readout :=
  match tablesBefore files (a.entriesPath id) with
  | .error _ => none
  | .ok _ => a.readout? files id

/-- What cataloguing a segment comes to: what it holds, or why nothing is written. -/
def outcome (a : Archive) (files : Files) (id : UInt32) : Except Failure Readout := do
  let segment ← a.openSegment files id
  let packets ← segment.packets.mapError Failure.segment
  let _ ← (tablesBefore files (a.entriesPath id)).mapError fun fault => .store (.database fault)
  return (segment, packets)

theorem stored?_eq_outcome (a : Archive) (files : Files) (id : UInt32) :
    a.stored? files id = (a.outcome files id).toOption := by
  unfold stored? outcome readout?
  cases a.openSegment files id with
  | error failure => cases tablesBefore files (a.entriesPath id) <;> rfl
  | ok segment =>
    cases packets : segment.packets with
    | error fault =>
      cases tablesBefore files (a.entriesPath id) <;>
        simp [packets, bind, Except.bind, Except.mapError, Except.toOption]
    | ok cs =>
      cases tablesBefore files (a.entriesPath id) <;>
        simp [packets, bind, Except.bind, Except.mapError, Except.toOption, pure, Except.pure]

/-- What a build reports of a segment that it catalogues. -/
def summaryOf (id : UInt32) (r : Readout) : Summary :=
  ⟨id, (entriesOf id r).length, Extent.ofEntries? id (entriesOf id r)⟩

/-- The table of a segment holds the entries of its packets. -/
def Holds (a : Archive) (files : Files) (index : List String) (id : UInt32) (r : Readout) : Prop :=
  ∃ tables : Tables, tables.entries = some (entriesOf id r) ∧
    Settled files a.index index (entriesName id) tables

/-- The names in the directory of tables that a build of some segments changes. -/
def changedNames (ids : List UInt32) : List String :=
  ids.flatMap fun id => tableNames (entriesName id)

theorem segmentName_notMem_changedNames (id : UInt32) (ids : List UInt32) :
    segmentName id ∉ changedNames ids := by
  intro member
  obtain ⟨other, _, changed⟩ := List.mem_flatMap.mp member
  exact segmentName_notMem (getLast?_entriesName other) id changed

theorem entriesName_notMem_changedNames {id : UInt32} {ids : List UInt32} (absent : id ∉ ids) :
    entriesName id ∉ changedNames ids := by
  intro member
  obtain ⟨other, inside, changed⟩ := List.mem_flatMap.mp member
  refine notMem_tableNames (getLast?_entriesName id) (fun same => ?_) changed
  exact absent (entriesName_inj same ▸ inside)

theorem journal_notMem_changedNames {id : UInt32} {ids : List UInt32} (absent : id ∉ ids) :
    entriesName id ++ "-journal" ∉ changedNames ids := by
  intro member
  obtain ⟨other, inside, changed⟩ := List.mem_flatMap.mp member
  refine journal_notMem_tableNames (getLast?_entriesName other) (fun same => ?_) changed
  exact absent (entriesName_inj same ▸ inside)

theorem extentsName_notMem_changedNames (ids : List UInt32) :
    extentsName ∉ changedNames ids := by
  intro member
  obtain ⟨other, _, changed⟩ := List.mem_flatMap.mp member
  exact notMem_tableNames (by decide) (entriesName_ne_extentsName other).symm changed

variable {a : Archive} {files files' : Files} {segments index : List String}

theorem openSegment_eq (l : files.Leads a.segments segments) (id : UInt32) :
    a.openSegment files id = (match Storage.Path.ofText (a.segmentPath id) with
      | .error _ => .error (.segment (.notFound (a.segmentPath id)))
      | .ok _ =>
        match files.kind? (segments ++ [segmentName id]) with
        | none => .error (.segment (.notFound (a.segmentPath id)))
        | some (.file content) =>
          (Segment.ofBytes (a.segmentPath id) content.data).mapError .segment
        | some .directory => .error (.io .noDevice)) := by
  have found := Storage.FileTree.resolve_join l (isName_segmentName id)
  have path : a.segmentPath id = Storage.join a.segments (segmentName id) := rfl
  rw [← path] at found
  simp only [openSegment, found, Storage.FileTree.kind?]
  cases Storage.Path.ofText (a.segmentPath id) with
  | error fault => rfl
  | ok p =>
    cases files.node? (segments ++ [segmentName id]) with
    | none => rfl
    | some node => cases node <;> rfl

theorem openSegment_congr (l : files.Leads a.segments segments)
    (l' : files'.Leads a.segments segments) {id : UInt32}
    (same : files'.kind? (segments ++ [segmentName id])
      = files.kind? (segments ++ [segmentName id])) :
    a.openSegment files' id = a.openSegment files id := by
  rw [openSegment_eq l', same, openSegment_eq l]

theorem data_of_openSegment {children : List (String × Files)}
    (listed : files.list a.segments = .ok children) {id : UInt32} {segment : Segment}
    (opened : a.openSegment files id = .ok segment) :
    ∃ content, (segmentName id, .file content) ∈ children ∧ segment.data = content.data := by
  obtain ⟨segments, l, there⟩ := Storage.FileTree.leads_of_list listed
  rw [openSegment_eq l] at opened
  split at opened
  next => cases opened
  next =>
    split at opened
    next => cases opened
    next content found =>
      have held : Storage.FileTree.child? children (segmentName id) = some (.file content) := by
        have here := Storage.FileTree.kind?_eq_file found
        rwa [Storage.FileTree.node?_append, there, Option.bind_some,
          Storage.FileTree.node?_name (isName_segmentName id)] at here
      obtain ⟨⟨name, node⟩, first, rfl⟩ := Option.map_eq_some_iff.mp held
      have named : name = segmentName id := by simpa using List.find?_some first
      refine ⟨content, named ▸ List.mem_of_find?_eq_some first, ?_⟩
      unfold Segment.ofBytes at opened
      split at opened
      next => cases opened
      next =>
        cases opened
        rfl
    next => cases opened

theorem openSegment_grown (grown : Storage.FileTree.Grown files files') {id : UInt32}
    {segment : Segment} (opened : a.openSegment files id = .ok segment) :
    a.openSegment files' id = .ok segment := by
  unfold openSegment at opened ⊢
  dsimp only at opened ⊢
  split at opened
  next => cases opened
  next found =>
    rw [Storage.FileTree.resolve_grown grown found]
    exact opened
  next => cases opened

theorem buildSegment_of_error (d : IsTableDirectory files a.index index) {id : UInt32}
    {failure : Failure} (failed : a.outcome files id = .error failure) :
    a.buildSegment files id = .error failure := by
  have path : a.entriesPath id = join a.index (entriesName id) := rfl
  unfold outcome at failed
  unfold buildSegment putEntries
  rw [path] at failed ⊢
  cases opened : a.openSegment files id with
  | error failure' =>
    rw [opened] at failed
    cases failed
    rfl
  | ok segment =>
    simp only [opened, bind, Except.bind, ofSegment_eq] at failed ⊢
    cases packets : segment.packets with
    | error fault =>
      rw [packets] at failed
      cases failed
      rfl
    | ok cs =>
      simp only [Except.map, Except.mapError, Database.write_eq d (isTableFile_entriesName id)]
      cases before : tablesBefore files (join a.index (entriesName id)) with
      | error fault =>
        simp only [packets, before, Except.mapError] at failed
        cases failed
        rfl
      | ok tables =>
        simp only [packets, before, Except.mapError] at failed
        cases failed

theorem outcome_eq_ok {id : UInt32} {r : Readout} : a.outcome files id = .ok r ↔
    a.openSegment files id = .ok r.1 ∧ r.1.packets = .ok r.2 ∧
      ∃ tables, tablesBefore files (a.entriesPath id) = .ok tables := by
  simp only [outcome, bind_eq_ok, mapError_eq_ok]
  constructor
  · rintro ⟨segment, opened, cs, packets, tables, before, same⟩
    cases same
    exact ⟨opened, packets, tables, before⟩
  · rintro ⟨opened, packets, tables, before⟩
    exact ⟨r.1, opened, r.2, packets, tables, before, rfl⟩

theorem buildSegment_of_put {id : UInt32} {r : Readout} (opened : a.openSegment files id = .ok r.1)
    (packets : r.1.packets = .ok r.2) (put : a.putEntries files id (entriesOf id r) = .ok files') :
    a.buildSegment files id = .ok (summaryOf id r, files') := by
  simp only [buildSegment, opened, bind, Except.bind, ofSegment_eq, packets, Except.map,
    Except.mapError]
  rw [show (r.1, r.2) = r from rfl, put]
  rfl

theorem buildSegment_of_ok (d : IsTableDirectory files a.index index) {id : UInt32} {r : Readout}
    (found : a.outcome files id = .ok r) :
    ∃ files', a.buildSegment files id = .ok (summaryOf id r, files') ∧
      a.Holds files' index id r ∧ SameBut index (tableNames (entriesName id)) files files' := by
  obtain ⟨opened, packets, tables, before⟩ := outcome_eq_ok.mp found
  obtain ⟨files', written, settled, same⟩ := Database.write_of_tables d
    (isTableFile_entriesName id) before ({ · with entries := some (entriesOf id r) })
  have put : a.putEntries files id (entriesOf id r) = .ok files' :=
    congrArg (Except.mapError StoreFault.database) written
  exact ⟨files', buildSegment_of_put opened packets put, ⟨_, rfl, settled⟩, same⟩

theorem outcome_of_sameBut (l : a.LiesAt files segments index) {names : List String}
    (same : SameBut index names files files') {id : UInt32} (file : segmentName id ∉ names)
    (table : entriesName id ∉ names) : a.outcome files' id = a.outcome files id := by
  have l' := l.mono same.directories
  have opened := openSegment_congr l.segments l'.segments (same.others fun _ => file)
  have before : tablesBefore files' (a.entriesPath id) = tablesBefore files (a.entriesPath id) :=
    Database.tablesBefore_congr l.index (isTableFile_entriesName id) l'.index
      (same.others fun _ => table)
  rw [outcome, outcome, opened, before]

theorem Holds.mono {names : List String} {id : UInt32} {r : Readout}
    (holds : a.Holds files index id r) (same : SameBut index names files files')
    (table : entriesName id ∉ names) (journal : entriesName id ++ "-journal" ∉ names) :
    a.Holds files' index id r := by
  obtain ⟨tables, rows, settled⟩ := holds
  exact ⟨tables, rows, settled.mono same table journal⟩

/-- The entries that a table holds are read in the order of their offsets. -/
theorem entries_of_holds (d : IsTableDirectory files a.index index) {id : UInt32} {r : Readout}
    (holds : a.Holds files index id r) :
    a.entries files id = .ok (Order.sort compareOffsets (entriesOf id r)) := by
  obtain ⟨tables, rows, settled⟩ := holds
  have t := isTableFile_entriesName id
  have path : a.entriesPath id = Storage.join a.index (entriesName id) := rfl
  rw [entries, path, Database.isPresent_of_settled d t settled,
    Database.read_of_settled d t settled "packets" Tables.entries rows]
  rfl

/-- Cataloguing a segment leaves what it and any other comes to. -/
theorem outcome_of_buildSegment (l : a.LiesAt files segments index) {id : UInt32} {r : Readout}
    (holds : a.Holds files' index id r)
    (same : SameBut index (tableNames (entriesName id)) files files')
    (found : a.outcome files id = .ok r) (other : UInt32) :
    a.outcome files' other = a.outcome files other := by
  have file := segmentName_notMem (getLast?_entriesName id) other
  by_cases own : other = id
  · subst own
    obtain ⟨opened, packets, _⟩ := outcome_eq_ok.mp found
    obtain ⟨tables, _, settled⟩ := holds
    have l' := l.mono same.directories
    have path : a.entriesPath other = join a.index (entriesName other) := rfl
    have before : tablesBefore files' (a.entriesPath other) = .ok tables := by
      rw [path, Database.tablesBefore_join l'.index (isTableFile_entriesName other),
        settled.fits, settled.table]
      rfl
    rw [found, outcome_eq_ok]
    refine ⟨?_, packets, tables, before⟩
    rw [openSegment_congr l.segments l'.segments (same.others fun _ => file), opened]
  · have ne : entriesName other ≠ entriesName id := fun names => own (entriesName_inj names)
    exact outcome_of_sameBut l same file (notMem_tableNames (getLast?_entriesName other) ne)

/-- What is reported of the segments of a list. -/
def reportOf (outcome : UInt32 → Except Failure Readout) (ids : List UInt32) : BuildReport where
  built := ids.filterMap fun id => (outcome id).toOption.map (summaryOf id)
  failed := ids.filterMap fun id =>
    match outcome id with
    | .error failure => some (id, failure)
    | .ok _ => none

/-- The segments of a list that are catalogued. -/
def cataloguedOf (a : Archive) (files : Files) (ids : List UInt32) : List UInt32 :=
  ids.filter fun id => (a.outcome files id).isOk

theorem buildEach_of_error {id : UInt32} {failure : Failure}
    (failed : a.buildSegment files id = .error failure) (ids : List UInt32) :
    a.buildEach files (id :: ids) =
      (⟨(a.buildEach files ids).1.built, (id, failure) :: (a.buildEach files ids).1.failed⟩,
        (a.buildEach files ids).2) := by
  conv => lhs; unfold buildEach
  rw [failed]

theorem buildEach_of_ok {id : UInt32} {summary : Summary}
    (built : a.buildSegment files id = .ok (summary, files')) (ids : List UInt32) :
    a.buildEach files (id :: ids) =
      (⟨summary :: (a.buildEach files' ids).1.built, (a.buildEach files' ids).1.failed⟩,
        (a.buildEach files' ids).2) := by
  conv => lhs; unfold buildEach
  rw [built]

/-- Every segment of a list is catalogued as if it were the only one, and no table changes but
those of the segments that are catalogued. -/
theorem buildEach_outcomes (l : a.LiesAt files segments index) (ids : List UInt32) :
    (a.buildEach files ids).1 = reportOf (a.outcome files) ids ∧
      SameBut index (changedNames (a.cataloguedOf files ids)) files (a.buildEach files ids).2 ∧
      (∀ id, a.outcome (a.buildEach files ids).2 id = a.outcome files id) ∧
      ∀ id ∈ ids, ∀ r, a.outcome files id = .ok r →
        a.Holds (a.buildEach files ids).2 index id r := by
  induction ids generalizing files with
  | nil => exact ⟨rfl, .refl _ _ _, fun _ => rfl, nofun⟩
  | cons id ids ih =>
    cases found : a.outcome files id with
    | error failure =>
      obtain ⟨reported, rest, kept, holds⟩ := ih l
      rw [buildEach_of_error (buildSegment_of_error l.index found)]
      refine ⟨?_, ?_, kept, fun other member r ok => ?_⟩
      · rw [reported]
        simp [reportOf, found, Except.toOption]
      · simpa [cataloguedOf, found, Except.isOk, Except.toBool] using rest
      · rcases List.mem_cons.mp member with rfl | inside
        · cases found.symm.trans ok
        · exact holds other inside r ok
    | ok r =>
      obtain ⟨written, built, here, same⟩ := buildSegment_of_ok l.index found
      -- the hypothesis about the files written says the same of the files before
      have unchanged : a.outcome written = a.outcome files :=
        funext (outcome_of_buildSegment l here same found)
      obtain ⟨reported, rest, kept, holds⟩ := ih (l.mono same.directories)
      simp only [unchanged, cataloguedOf] at reported rest kept holds
      rw [buildEach_of_ok built]
      refine ⟨?_, ?_, kept, fun other member r' ok => ?_⟩
      · rw [reported]
        simp [reportOf, found, Except.toOption]
      · have both := same.trans rest
        simpa [cataloguedOf, found, Except.isOk, Except.toBool, changedNames] using both
      · by_cases inside : other ∈ ids
        · exact holds other inside r' ok
        · obtain rfl : other = id := by simpa [inside] using member
          cases found.symm.trans ok
          have apart : other ∉ a.cataloguedOf files ids := fun member =>
            inside (List.mem_filter.mp member).1
          exact here.mono rest (entriesName_notMem_changedNames apart)
            (journal_notMem_changedNames apart)

theorem outcome_eq_ok_iff_stored? {id : UInt32} {r : Readout} :
    a.outcome files id = .ok r ↔ a.stored? files id = some r := by
  rw [stored?_eq_outcome]
  cases a.outcome files id <;> simp [Except.toOption]

/-- The same by what is stored of each segment. -/
theorem buildEach_spec (l : a.LiesAt files segments index) (ids : List UInt32) :
    (a.buildEach files ids).1.built
        = ids.filterMap (fun id => (a.stored? files id).map (summaryOf id)) ∧
      (a.buildEach files ids).1.failed.map (·.1)
        = ids.filter (fun id => (a.stored? files id).isNone) ∧
      SameBut index (changedNames ids) files (a.buildEach files ids).2 ∧
      ∀ id ∈ ids, ∀ r, a.stored? files id = some r →
        a.Holds (a.buildEach files ids).2 index id r := by
  obtain ⟨reported, same, _, holds⟩ := buildEach_outcomes l ids
  refine ⟨?_, ?_, same.mono fun name changed => ?_, fun id member r stored => ?_⟩
  · simp only [reported, reportOf, stored?_eq_outcome]
  · rw [reported, reportOf, List.map_filterMap, ← List.filterMap_eq_filter]
    refine List.filterMap_congr fun id _ => ?_
    rw [Option.guard, stored?_eq_outcome]
    cases a.outcome files id <;> rfl
  · obtain ⟨id, catalogued, own⟩ := List.mem_flatMap.mp changed
    exact List.mem_flatMap.mpr ⟨id, (List.mem_filter.mp catalogued).1, own⟩
  · exact holds id member r (outcome_eq_ok_iff_stored?.mpr stored)

/-- The extents of the segments that are catalogued and have packets. -/
def extentsOf (a : Archive) (files : Files) (ids : List UInt32) : List Extent :=
  ids.filterMap fun id => (a.stored? files id).bind fun r => Extent.ofEntries? id (entriesOf id r)

theorem segment_of_ofEntries? {id : UInt32} {rows : List Entry} {extent : Extent}
    (found : Extent.ofEntries? id rows = some extent) : extent.segment = id := by
  unfold Extent.ofEntries? at found
  obtain ⟨first, _, found⟩ := Option.bind_eq_some_iff.mp found
  obtain ⟨last, _, found⟩ := Option.bind_eq_some_iff.mp found
  cases found
  rfl

/-- The extents come in the order of the segments. -/
theorem extentsOf_pairwise {order : UInt32 → UInt32 → Prop} {ids : List UInt32}
    (sorted : ids.Pairwise order) :
    (a.extentsOf files ids).Pairwise fun e f => order e.segment f.segment := by
  rw [extentsOf, List.pairwise_filterMap]
  refine sorted.imp fun {i j} before e found f found' => ?_
  obtain ⟨_, _, first⟩ := Option.bind_eq_some_iff.mp found
  obtain ⟨_, _, second⟩ := Option.bind_eq_some_iff.mp found'
  rw [segment_of_ofEntries? first, segment_of_ofEntries? second]
  exact before

theorem putExtents_spec (d : IsTableDirectory files a.index index) {tables : Tables}
    (before : tablesBefore files a.extentsPath = .ok tables) {rows : List Extent}
    (ordered : rows.Pairwise fun e f => e.segment ≤ f.segment) :
    ∃ built, a.putExtents files rows = .ok built ∧ a.extents built = .ok rows ∧
      SameBut index (tableNames extentsName) files built := by
  have path : a.extentsPath = Storage.join a.index extentsName := rfl
  have sorted : Order.sort (fun e f : Extent => compare e.segment.toNat f.segment.toNat) rows
      = rows := by
    apply Order.sort_of_pairwise
    refine ordered.imp fun {e f} le => ?_
    rw [Nat.isLE_compare]
    exact UInt32.le_iff_toNat_le.mp le
  obtain ⟨built, written, settled, same⟩ := Database.write_of_tables d
    isTableFile_extentsName before ({ · with extents := some rows })
  have d' := d.mono same.directories
  refine ⟨built, ?_, ?_, same⟩
  · rw [putExtents, sorted, path, written]
    rfl
  · have here := Database.isPresent_of_settled d' isTableFile_extentsName settled
    have found := Database.read_of_settled d' isTableFile_extentsName settled "master_index"
      Tables.extents rfl
    rw [extents, path, here, found]
    rfl

theorem tablesBefore_of_putExtents {rows : List Extent} {written : Files}
    (put : a.putExtents files rows = .ok written) :
    ∃ tables, tablesBefore files a.extentsPath = .ok tables := by
  unfold putExtents Database.write at put
  unfold tablesBefore
  cases opened : Database.open? files a.extentsPath .create with
  | error fault =>
    rw [opened] at put
    cases put
  | ok database =>
    cases content : database.content.tablesOf with
    | error fault =>
      simp only [opened, content, bind, Except.bind, Except.mapError] at put
      cases put
    | ok tables => exact ⟨tables, content⟩

/-- What a build of some segments comes to: each is catalogued by what it held before. -/
structure Built (a : Archive) (files built : Files) (ids : List UInt32) (report : BuildReport)
    (place : List String) : Prop where
  index : IsTableDirectory built a.index place
  reported : report.built = ids.filterMap fun id => (a.stored? files id).map (summaryOf id)
  failed : report.failed.map (·.1) = ids.filter fun id => (a.stored? files id).isNone
  extents : a.extents built = .ok (a.extentsOf files ids)
  segments : ∀ id, a.openSegment built id = a.openSegment files id
  holds : ∀ id ∈ ids, ∀ r, a.stored? files id = some r → a.Holds built place id r

theorem tablesBefore_buildEach (l : a.LiesAt files segments index) (ids : List UInt32) :
    tablesBefore (a.buildEach files ids).2 a.extentsPath = tablesBefore files a.extentsPath := by
  obtain ⟨_, _, same, _⟩ := buildEach_spec l ids
  have l' := l.mono same.directories
  exact Database.tablesBefore_congr l.index isTableFile_extentsName l'.index
    (same.others fun _ => extentsName_notMem_changedNames ids)

/-- Writing the extents of the report makes the catalogue. -/
theorem putExtents_of_report (l : a.LiesAt files segments index) {ids : List UInt32}
    (sorted : ids.Pairwise (· ≤ ·)) {tables : Tables}
    (writable : tablesBefore files a.extentsPath = .ok tables) :
    let report := (a.buildEach files ids).1
    ∃ built, a.putExtents (a.buildEach files ids).2 (report.built.filterMap (·.extent))
        = .ok built ∧
      a.Built files built ids report index := by
  intro report
  obtain ⟨reported, failed, same, kept⟩ := buildEach_spec l ids
  have l' := l.mono same.directories
  -- the extents are those of the report, which come in the order of the segments
  have rows : report.built.filterMap (·.extent) = a.extentsOf files ids := by
    rw [reported, List.filterMap_filterMap]
    refine List.filterMap_congr fun id _ => ?_
    cases a.stored? files id <;> rfl
  have before := (tablesBefore_buildEach l ids).trans writable
  obtain ⟨built, written, read, last⟩ :=
    putExtents_spec l'.index before (a.extentsOf_pairwise sorted)
  have l'' := l'.mono last.directories
  refine ⟨built, by rw [rows, written], l''.index, reported, failed, read, ?_, ?_⟩
  · intro id
    refine openSegment_congr l.segments l''.segments ((same.trans last).others fun _ => ?_)
    rw [List.mem_append, not_or]
    exact ⟨segmentName_notMem_changedNames id ids, segmentName_notMem (by decide) id⟩
  · intro id member r stored
    refine (kept id member r stored).mono last ?_ ?_
    · exact notMem_tableNames (getLast?_entriesName id) (entriesName_ne_extentsName id)
    · exact journal_notMem_tableNames (by decide) (entriesName_ne_extentsName id)

section Build

variable (local_ : ¬ "file:".toList <+: a.index.toList)
include local_

/-- A build comes to its end where the directory of tables can be made, that of segments be listed
and the table of extents be written. -/
theorem buildAll_finishes {made : Files}
    (prepared : files.createDirectories a.index = (.ok (), made))
    {children : List (String × Files)} (listed : made.list a.segments = .ok children)
    {tables : Tables} (writable : tablesBefore made a.extentsPath = .ok tables) :
    ∃ report built index, a.buildAll files = (.ok report, built) ∧
      a.Built made built (listedIds children) report index := by
  obtain ⟨_, index, leads⟩ := Storage.FileTree.createDirectories_spec prepared
  obtain ⟨segments, from_, _⟩ := Storage.FileTree.leads_of_list listed
  have l : a.LiesAt made segments index := ⟨from_, leads, local_⟩
  obtain ⟨built, written, b⟩ := putExtents_of_report l (listedIds_sorted children) writable
  refine ⟨_, built, index, ?_, b⟩
  simp only [buildAll, prepared, segmentIds_eq listed, written]

/-- A build that has come to its end has catalogued the segments that are listed. -/
theorem built_of_buildAll {report : BuildReport} {built : Files}
    (finished : a.buildAll files = (.ok report, built)) :
    ∃ made children index, files.createDirectories a.index = (.ok (), made) ∧
      made.list a.segments = .ok children ∧
      a.Built made built (listedIds children) report index := by
  have last := finished
  unfold buildAll at finished
  split at finished
  next => cases finished
  next made prepared =>
    split at finished
    next => cases finished
    next ids found =>
      cases listed : made.list a.segments with
      | error fault =>
        rw [segmentIds, listed] at found
        cases found
      | ok children =>
        cases (segmentIds_eq listed).symm.trans found
        obtain ⟨_, index, leads⟩ := Storage.FileTree.createDirectories_spec prepared
        obtain ⟨segments, from_, _⟩ := Storage.FileTree.leads_of_list listed
        have l : a.LiesAt made segments index := ⟨from_, leads, local_⟩
        dsimp only at finished
        split at finished
        next => cases finished
        next written put =>
          obtain ⟨tables, writable⟩ : ∃ tables,
              tablesBefore made a.extentsPath = .ok tables := by
            rw [← tablesBefore_buildEach l (listedIds children)]
            exact tablesBefore_of_putExtents put
          obtain ⟨_, _, index, finishes, b⟩ :=
            buildAll_finishes local_ prepared listed writable
          cases last.symm.trans finishes
          exact ⟨made, children, index, prepared, listed, b⟩

/-- The segments of a canonical listing are catalogued in ascending order. -/
theorem buildAll_spec {made : Files}
    (prepared : files.createDirectories a.index = (.ok (), made))
    {children : List (String × Files)} (listed : made.list a.segments = .ok children)
    (listing : IsSegmentListing children) {tables : Tables}
    (writable : tablesBefore made a.extentsPath = .ok tables) :
    ∃ ids report built index, a.buildAll files = (.ok report, built) ∧
      ids.Pairwise (· < ·) ∧ (∀ id, id ∈ ids ↔ segmentName id ∈ children.map (·.1)) ∧
      (∀ id segment, a.openSegment files id = .ok segment →
        a.openSegment made id = .ok segment) ∧
      a.Built made built ids report index := by
  obtain ⟨report, built, index, finished, b⟩ :=
    buildAll_finishes local_ prepared listed writable
  have grown := (Storage.FileTree.createDirectories_spec prepared).1
  refine ⟨listedIds children, report, built, index, finished, ?_, fun id => ?_,
    fun _ _ => openSegment_grown grown, b⟩
  · exact (listedIds_ascending_iff children).mpr (nodup_numbersIn listing)
  · rw [(listedIds_perm children).mem_iff, mem_numbersIn listing]

end Build

end Archive

end PacketQuery.Catalog
