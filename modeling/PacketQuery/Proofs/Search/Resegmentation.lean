import PacketQuery.Proofs.Language.Placement
import PacketQuery.Proofs.Search.Uniqueness
import PacketQuery.Proofs.Segment.Writing
/-!
Packets cut into segments in two ways. A statement that does not ask where a packet lies finds the
same packets in both, in the same order, and so comes to the same answer.
-/

namespace PacketQuery.Search

open Catalog (Archive Entry Extent Files Readout segmentName)
open PacketQuery.Language (Mention Statement)
open Segment (Draft)

/-- A packet to be written: seconds, microseconds and frame. -/
abbrev Written := UInt32 × UInt32 × Bytes

/-- No field of the statement gives the place of a packet. -/
def IgnoresPlaces (s : Statement) : Prop :=
  ∀ name, Mention.field name ∈ s.mentions → Packet.namesPlace name = false

/-- The packet itself, at no place. -/
def bare (set : List Protocol) (linkType : UInt16) (p : Written) : Packet :=
  .ofCaptured set linkType 0 ⟨0, p.1, p.2.1, UInt32.ofNat p.2.2.length,
    UInt32.ofNat p.2.2.length, [], p.2.2⟩

/-- The hits of a statement among packets, wherever they lie. -/
def hitsAmong (s : Statement) (now : Int64) (linkType : UInt16) (ps : List Written) : List Hit :=
  (ps.filter fun p => offers s (.ofPacket (bare Protocol.lower linkType p)) &&
    s.filter.all (Language.accepts (bare Protocol.all linkType p) now)).map fun p =>
      Hit.ofPacket (.ofStatement s) (bare Protocol.all linkType p)

theorem hitsAmong_flatMap {α : Type} (s : Statement) (now : Int64) (linkType : UInt16)
    (xs : List α) (f : α → List Written) :
    hitsAmong s now linkType (xs.flatMap f) = xs.flatMap fun x => hitsAmong s now linkType (f x) := by
  rw [hitsAmong, List.filter_flatMap, List.map_flatMap]
  rfl

section Place

variable {s : Statement} (free : IgnoresPlaces s)
include free

theorem namesPlace_of_mem_inputs {name : String}
    (member : some name ∈ (Plan.ofStatement s).inputs) : Packet.namesPlace name = false := by
  have wildcard : ∀ name ∈ wildcardColumns, Packet.namesPlace name = false := by decide +kernel
  rcases List.mem_append.mp member with item | extra
  · obtain ⟨item, inside, reads⟩ := List.mem_map.mp item
    cases projection : s.projection with
    | wildcard =>
      rw [projection] at inside
      obtain ⟨column, known, rfl⟩ := List.mem_map.mp inside
      cases reads
      exact wildcard name known
    | items items =>
      rw [projection] at inside
      refine free name ?_
      have mentioned : Mention.field name ∈ item.mentions := by
        cases item with
        | field column =>
          cases reads
          exact List.mem_singleton_self _
        | aggregate function argument label =>
          change argument = some name at reads
          simp [Language.Item.mentions, reads]
      have projected : Mention.field name ∈ s.projection.mentions := by
        rw [projection]
        exact List.mem_flatMap.mpr ⟨item, inside, mentioned⟩
      simp [Statement.mentions, projected]
  · obtain ⟨column, inside, same⟩ := List.mem_map.mp extra
    cases same
    refine free name ?_
    have ordered : name ∈ s.orderBy := by
      split at inside
      next => cases inside
      next => exact List.mem_of_mem_filter inside
    simp [Statement.mentions, ordered]

theorem accepts_of_ignoresPlaces (p : Packet) (segment : UInt32) (offset : UInt64) (now : Int64) :
    s.filter.all (Language.accepts (p.placed segment offset) now)
      = s.filter.all (Language.accepts p now) := by
  cases filter : s.filter with
  | none => rfl
  | some e =>
    refine Language.accepts_placed p segment offset now fun name member => free name ?_
    simp [Statement.mentions, filter, member]

theorem ofPacket_placed (p : Packet) (segment : UInt32) (offset : UInt64) :
    Hit.ofPacket (.ofStatement s) (p.placed segment offset) = .ofPacket (.ofStatement s) p := by
  have value : ∀ name, Packet.namesPlace name = false →
      fieldValue (p.placed segment offset) name = fieldValue p name := by
    intro name free
    rw [fieldValue, fieldValue, p.field?_placed segment offset free]
  have key : s.groupBy.map (fieldValue (p.placed segment offset))
      = s.groupBy.map (fieldValue p) := by
    refine List.map_congr_left fun name member => value name (free name ?_)
    simp [Statement.mentions, member]
  have inputs : (Hit.ofPacket (.ofStatement s) (p.placed segment offset)).inputs
      = (Hit.ofPacket (.ofStatement s) p).inputs := by
    refine List.map_congr_left fun input member => ?_
    cases input with
    | none => rfl
    | some name => exact value name (namesPlace_of_mem_inputs free member)
  have fields : ∀ hit hit' : Hit, hit.time = hit'.time → hit.key = hit'.key →
      hit.inputs = hit'.inputs → hit = hit' := by
    rintro ⟨_, _, _⟩ ⟨_, _, _⟩ rfl rfl rfl
    rfl
  exact fields _ _ rfl key inputs

/-- What a statement finds in a segment that is written is what it finds among its packets. -/
theorem foundOf_segment (now : Int64) (id : UInt32) (d : Draft) (path : String) :
    (foundOf s now id (d.segment path, d.captures)).map (Hit.ofPacket (.ofStatement s))
      = hitsAmong s now d.linkType.toUInt16 d.packets := by
  let linkType := d.linkType.toUInt16
  -- the packet of a record, with its place taken off
  have decoded : ∀ set offset p, Packet.ofCaptured set linkType id (d.captureAt offset p)
      = (bare set linkType p).placed id (UInt64.ofNat offset) := fun _ _ _ => rfl
  rw [foundOf, offeredOf, List.filter_map, List.map_map, List.filter_filter]
  refine Draft.capturesFrom_filter_map d (fun offset p => ?_) (fun offset p => ?_) _ d.packets
  · have accepted := accepts_of_ignoresPlaces free (bare Protocol.all linkType p) id
      (UInt64.ofNat offset) now
    rw [← decoded] at accepted
    exact (Bool.and_comm _ _).trans (congrArg _ accepted)
  · have hit := ofPacket_placed free (bare Protocol.all linkType p) id (UInt64.ofNat offset)
    rwa [← decoded] at hit

end Place

/-- Packets cut into runs, each a segment of its own number, in ascending order. Offsets in them are
numbers of 64 bits. -/
structure IsCut (linkType : UInt32) (ps : List Written) (runs : List (UInt32 × Draft)) :
    Prop where
  ascending : runs.Pairwise fun run later => run.1 < later.1
  linkTypes : ∀ run ∈ runs, run.2.linkType = linkType
  whole : runs.flatMap (·.2.packets) = ps
  sizes : ∀ run ∈ runs, run.2.toBytes.length ≤ UInt64.size

/-- An archive whose segments are the given runs, where a build can write every table. `made` are
the files with the directory of tables. -/
structure Stores (a : Archive) (files made : Files) (runs : List (UInt32 × Draft)) : Prop where
  local_ : ¬ "file:".toList <+: a.index.toList
  prepared : files.createDirectories a.index = (.ok (), made)
  listed : ∃ children, made.list a.segments = .ok children ∧
    Catalog.IsSegmentListing children ∧
    ∀ id, segmentName id ∈ children.map (·.1) ↔ id ∈ runs.map (·.1)
  written : ∀ run ∈ runs, ∃ content,
    made.resolve (a.segmentPath run.1) = .ok (.file content) ∧ content.data = run.2.toBytes
  entries : ∀ run ∈ runs, ∃ tables,
    Catalog.Database.tablesBefore made (a.entriesPath run.1) = .ok tables
  extents : ∃ tables, Catalog.Database.tablesBefore made a.extentsPath = .ok tables

section Stored

variable {a : Archive} {files made : Files} {runs : List (UInt32 × Draft)} {linkType : UInt32}
  {ps : List Written} (stored : Stores a files made runs) (cut : IsCut linkType ps runs)
  (short : ∀ p ∈ ps, p.2.2.length ≤ Segment.maxCaptured)

include stored in
theorem openSegment_of_stores {run : UInt32 × Draft} (member : run ∈ runs) :
    a.openSegment made run.1 = .ok (run.2.segment (a.segmentPath run.1)) := by
  obtain ⟨content, found, data⟩ := stored.written run member
  simp only [Archive.openSegment, found, data, Draft.ofBytes_toBytes]
  rfl

include stored in
theorem mem_of_openSegment {id : UInt32} {segment : Segment}
    (opened : a.openSegment made id = .ok segment) :
    ∃ run ∈ runs, run.1 = id ∧ segment = run.2.segment (a.segmentPath id) := by
  obtain ⟨children, listed, _, names⟩ := stored.listed
  obtain ⟨content, child, _⟩ := Archive.data_of_openSegment listed opened
  have named : segmentName id ∈ children.map (·.1) := List.mem_map_of_mem child
  obtain ⟨run, member, rfl⟩ := List.mem_map.mp ((names id).mp named)
  have same := (openSegment_of_stores stored member).symm.trans opened
  exact ⟨run, member, rfl, (Except.ok.inj same).symm⟩

include stored cut short

theorem readout?_of_stores {run : UInt32 × Draft} (member : run ∈ runs) :
    a.readout? made run.1 = some (run.2.segment (a.segmentPath run.1), run.2.captures) := by
  have inside : ∀ p ∈ run.2.packets, p.2.2.length ≤ Segment.maxCaptured := by
    intro p there
    refine short p ?_
    rw [← cut.whole]
    exact List.mem_flatMap.mpr ⟨run, member, there⟩
  rw [Archive.readout?, openSegment_of_stores stored member]
  dsimp only
  rw [Draft.packets_segment inside]
  rfl

theorem stored?_of_stores {run : UInt32 × Draft} (member : run ∈ runs) :
    a.stored? made run.1 = some (run.2.segment (a.segmentPath run.1), run.2.captures) := by
  obtain ⟨tables, before⟩ := stored.entries run member
  rw [Archive.stored?, before]
  exact readout?_of_stores stored cut short member

omit short in
theorem ids_of_stores {ids : List UInt32} (ascending : ids.Pairwise (· < ·))
    {children : List (String × Files)} (listed : made.list a.segments = .ok children)
    (members : ∀ id, id ∈ ids ↔ segmentName id ∈ children.map (·.1)) : ids = runs.map (·.1) := by
  obtain ⟨children', listed', _, names⟩ := stored.listed
  cases listed.symm.trans listed'
  have sorted : (runs.map (·.1)).Pairwise (· < ·) := List.pairwise_map.mpr cut.ascending
  have perm : ids.Perm (runs.map (·.1)) := by
    refine (List.perm_ext_iff_of_nodup (ascending.imp UInt32.ne_of_lt)
      (sorted.imp UInt32.ne_of_lt)).mpr fun id => ?_
    rw [members, names]
  exact perm.eq_of_pairwise (fun _ _ _ _ lt gt => absurd gt (UInt32.lt_asymm lt)) ascending sorted

section Hits

variable {built : Files} {report : Catalog.BuildReport} {place : List String}
  (b : a.Built made built (runs.map (·.1)) report place) {s : Statement}
include b

theorem foundIn_of_stores (now : Int64) {run : UInt32 × Draft} (member : run ∈ runs) :
    foundIn a built s now run.1
      = foundOf s now run.1 (run.2.segment (a.segmentPath run.1), run.2.captures) := by
  have same : a.readout? built run.1 = a.readout? made run.1 := by
    rw [Archive.readout?, Archive.readout?, b.segments]
  exact foundIn_of_readout? (same.trans (readout?_of_stores stored cut short member)) s now

theorem hits_of_stores (free : IgnoresPlaces s) (now : Int64) {options : Options}
    (unpruned : options.prune = false ∨ s.interval = none) :
    ((segmentsFor options s (a.extentsOf made (runs.map (·.1)))).flatMap
        (foundIn a built s now)).map (Hit.ofPacket (.ofStatement s))
      = hitsAmong s now linkType.toUInt16 ps := by
  -- segments without packets are not taken, and there is nothing to be found in them
  have lost : ∀ id ∈ runs.map (·.1), (!(packetsIn a made id).isEmpty) = false →
      foundIn a built s now id = [] := by
    intro id member empty
    obtain ⟨run, inside, rfl⟩ := List.mem_map.mp member
    have nothing : packetsIn a made run.1 = [] := by simpa using empty
    rw [packetsIn_of_stored? (stored?_of_stores stored cut short inside)] at nothing
    have sublist :=
      foundOf_sublist s now run.1 (run.2.segment (a.segmentPath run.1), run.2.captures)
    rw [nothing] at sublist
    rw [foundIn_of_stores stored cut short b now inside]
    exact List.sublist_nil.mp sublist
  rw [segmentsFor_unpruned unpruned, segment_extentsOf, flatMap_filter_of_nil lost, ← cut.whole,
    hitsAmong_flatMap, List.flatMap_map, List.map_flatMap]
  refine List.flatMap_congr fun run member => ?_
  rw [foundIn_of_stores stored cut short b now member, foundOf_segment free,
    cut.linkTypes run member]

end Hits

/-- A build of such an archive takes every run, and a search finds what the statement finds among
the packets. -/
theorem execute_of_stores {s : Statement} (free : IgnoresPlaces s) (now : Int64) :
    ∃ report built, a.buildAll files = (.ok report, built) ∧ report.failed = [] ∧
      ∀ options, options.prune = false ∨ s.interval = none →
        ∃ r, execute a built options s now = .ok r ∧ r.answer = answerOf s
          (within (s.top.map (·.toNat)) (hitsAmong s now linkType.toUInt16 ps)) := by
  obtain ⟨children, listed, listing, _⟩ := stored.listed
  obtain ⟨tables, writable⟩ := stored.extents
  obtain ⟨ids, report, built, place, finished, ascending, members, _, b⟩ :=
    Archive.buildAll_spec stored.local_ stored.prepared listed listing writable
  obtain rfl := ids_of_stores stored cut ascending listed members
  have failed : report.failed = [] := by
    rw [← List.map_eq_nil_iff, b.failed, List.filter_eq_nil_iff]
    intro id member
    obtain ⟨run, inside, rfl⟩ := List.mem_map.mp member
    simp [stored?_of_stores stored cut short inside]
  have fits : ∀ id segment, a.openSegment built id = .ok segment →
      segment.data.length ≤ UInt64.size := by
    intro id segment opened
    rw [b.segments] at opened
    obtain ⟨run, member, _, rfl⟩ := mem_of_openSegment stored opened
    exact cut.sizes run member
  have c := isCatalogued_of_built b (ascending.imp UInt32.le_of_lt) fits
  have unique : ((a.extentsOf made (runs.map (·.1))).map (·.segment)).Nodup :=
    List.pairwise_map.mpr ((Archive.extentsOf_pairwise ascending).imp UInt32.ne_of_lt)
  refine ⟨report, built, finished, failed, fun options unpruned => ?_⟩
  obtain ⟨r, ran, answer⟩ := execute_eq_reported c options s now (.inr unique)
  refine ⟨r, ran, ?_⟩
  rw [answer, reported, ← within_map, hits_of_stores stored cut short b free now unpruned]

/-- However packets are cut into segments, a statement that does not ask for the place of a packet
has the same answer, with any number of workers. A search that prunes by the statement's interval
is left out: extents are those of segments, and so depend on the cut. -/
theorem execute_resegmented {a' : Archive} {files' made' : Files}
    {runs' : List (UInt32 × Draft)} (stored' : Stores a' files' made' runs')
    (cut' : IsCut linkType ps runs') {s : Statement} (free : IgnoresPlaces s) (now : Int64) :
    ∃ report built report' built',
      a.buildAll files = (.ok report, built) ∧ report.failed = [] ∧
      a'.buildAll files' = (.ok report', built') ∧ report'.failed = [] ∧
      ∀ options options' : Options,
        (options.prune = false ∧ options'.prune = false) ∨ s.interval = none →
        ∃ r r', execute a built options s now = .ok r ∧ execute a' built' options' s now = .ok r' ∧
          r.answer = r'.answer := by
  obtain ⟨report, built, finished, failed, answers⟩ :=
    execute_of_stores stored cut short free now
  obtain ⟨report', built', finished', failed', answers'⟩ :=
    execute_of_stores stored' cut' short free now
  refine ⟨report, built, report', built', finished, failed, finished', failed',
    fun options options' unpruned => ?_⟩
  obtain ⟨r, ran, answer⟩ := answers options (unpruned.imp_left And.left)
  obtain ⟨r', ran', answer'⟩ := answers' options' (unpruned.imp_left And.right)
  exact ⟨r, r', ran, ran', answer.trans answer'.symm⟩

end Stored

section Sample

/-- Segments of the given runs, and an empty directory for tables. -/
def sampleRuns (runs : List (UInt32 × Draft)) : Files :=
  sampleNamed (runs.map fun run => (segmentName run.1, run.2.toBytes))

theorem stores_sampleRuns {runs : List (UInt32 × Draft)} (distinct : (runs.map (·.1)).Nodup)
    (written : ∀ run ∈ runs, (sampleRuns runs).resolve (sampleArchive.segmentPath run.1)
      = .ok (.file (.bytes run.2.toBytes)))
    (entries : ∀ run ∈ runs,
      Catalog.Database.tablesBefore (sampleRuns runs) (sampleArchive.entriesPath run.1)
        = .ok .empty) :
    Stores sampleArchive (sampleRuns runs) (sampleRuns runs) runs := by
  have injective : Function.Injective segmentName := by
    intro id id' same
    have number := Catalog.segmentId?_segmentName id
    rw [same, Catalog.segmentId?_segmentName] at number
    exact (Option.some.inj number).symm
  have names : (sampleChildren (runs.map fun run => (segmentName run.1, run.2.toBytes))).map (·.1)
      = (runs.map (·.1)).map segmentName := by
    simp [sampleChildren, Function.comp_def]
  refine ⟨by decide, createDirectories_sampleNamed _, ⟨_, list_sampleNamed _, ⟨?_, ?_⟩, ?_⟩,
    fun run member => ⟨_, written run member, rfl⟩, fun run member => ⟨_, entries run member⟩,
    ⟨⟨none, none⟩, rfl⟩⟩
  · rw [names]
    exact distinct.map injective
  · intro entry member id number
    have named : entry.1 ∈ (runs.map (·.1)).map segmentName :=
      names ▸ List.mem_map_of_mem member
    obtain ⟨id', _, same⟩ := List.mem_map.mp named
    rw [← same, Catalog.segmentId?_segmentName] at number
    cases number
    exact same.symm
  · intro id
    rw [names]
    exact List.mem_map_of_injective injective

def sampleWritten : List Written :=
  [(1, 0, Assembly.udpFrame [10, 0, 0, 2] [10, 0, 0, 3] 3000 2000 []),
    (1, 0, Assembly.udpFrame [10, 0, 0, 2] [10, 0, 0, 3] 1000 2000 [])]

/-- Both datagrams in one segment, and each in a segment of its own, behind an empty one. -/
theorem execute_resegmented_pair :
    let whole : List (UInt32 × Draft) := [(7, ⟨.little, 1, sampleWritten⟩)]
    let parts : List (UInt32 × Draft) := [(2, ⟨.little, 1, []⟩),
      (3, ⟨.big, 1, sampleWritten.take 1⟩), (9, ⟨.little, 1, sampleWritten.drop 1⟩)]
    Stores sampleArchive (sampleRuns whole) (sampleRuns whole) whole ∧
      IsCut 1 sampleWritten whole ∧
      Stores sampleArchive (sampleRuns parts) (sampleRuns parts) parts ∧
      IsCut 1 sampleWritten parts ∧
      (∀ p ∈ sampleWritten, p.2.2.length ≤ Segment.maxCaptured) ∧
      IgnoresPlaces sampleStatement ∧
      ∃ r r', execute sampleArchive (sampleArchive.buildAll (sampleRuns whole)).2 ⟨1, true⟩
          sampleStatement 0 = .ok r ∧
        execute sampleArchive (sampleArchive.buildAll (sampleRuns parts)).2 ⟨2, true⟩
          sampleStatement 0 = .ok r' ∧
        r.answer = r'.answer ∧ r.matched = 2 := by
  intro whole parts
  have stored : Stores sampleArchive (sampleRuns whole) (sampleRuns whole) whole :=
    stores_sampleRuns (by decide) (List.forall_mem_singleton.mpr rfl) (by decide +kernel)
  have stored' : Stores sampleArchive (sampleRuns parts) (sampleRuns parts) parts :=
    stores_sampleRuns (by decide) (List.forall_mem_cons.mpr ⟨rfl, List.forall_mem_cons.mpr
      ⟨rfl, List.forall_mem_singleton.mpr rfl⟩⟩) (by decide +kernel)
  have cut : IsCut 1 sampleWritten whole :=
    ⟨by decide, by decide, rfl, by decide +kernel⟩
  have cut' : IsCut 1 sampleWritten parts :=
    ⟨by decide, by decide, rfl, by decide +kernel⟩
  have short : ∀ p ∈ sampleWritten, p.2.2.length ≤ Segment.maxCaptured := by
    decide +kernel
  have free : IgnoresPlaces sampleStatement := by
    intro name mentioned
    have only : name = "udp.sport" := by
      simpa [Statement.mentions, Language.Projection.mentions, Language.Item.mentions,
        sampleStatement] using mentioned
    rw [only]
    decide
  obtain ⟨report, built, report', built', finished, _, finished', _, answers⟩ :=
    execute_resegmented stored cut short stored' cut' free 0
  obtain ⟨r, r', ran, ran', same⟩ := answers ⟨1, true⟩ ⟨2, true⟩ (.inr rfl)
  have two : (execute sampleArchive (sampleArchive.buildAll (sampleRuns whole)).2 ⟨1, true⟩
      sampleStatement 0).map (·.matched) = .ok 2 := by
    obtain ⟨_, _, finished, _, found⟩ := execute_of_stores stored cut short free 0
    obtain ⟨r, ran, answer⟩ := found ⟨1, true⟩ (.inr rfl)
    have hits : (hitsAmong sampleStatement 0 1 sampleWritten).length = 2 := by decide +kernel
    rw [finished, ran]
    exact congrArg Except.ok ((congrArg Answer.matched answer).trans hits)
  rw [finished, ran] at two
  refine ⟨stored, cut, stored', cut', short, free, r, r', ?_, ?_, same, Except.ok.inj two⟩
  · rw [finished]
    exact ran
  · rw [finished']
    exact ran'

end Sample

end PacketQuery.Search
