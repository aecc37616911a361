import PacketQuery.Proofs.Search.Catalogued
/-!
Segments are named by numbers, and more than one name can give a number: signs and leading zeros
are taken. Each name is listed, and a segment listed twice is catalogued twice. It is exactly where
a catalogue has a segment twice that a search can report a packet twice.
-/

namespace PacketQuery.Search

open Catalog (Archive Entry Extent Files Readout entriesOf numbersIn listedIds segmentName)
open PacketQuery.Language (Statement)

theorem within_sublist {α : Type} (room : Option Nat) (xs : List α) :
    (within room xs).Sublist xs := by
  cases room with
  | none => exact List.Sublist.refl xs
  | some n => exact List.take_sublist n xs

theorem isPresent_segmentPath {a : Archive} {files : Files} {children : List (String × Files)}
    (listed : files.list a.segments = .ok children) (id : UInt32) :
    files.isPresent (a.segmentPath id) = true ↔
      (Storage.Path.ofText (a.segmentPath id)).isOk = true ∧
        segmentName id ∈ children.map (·.1) := by
  obtain ⟨place, leads, there⟩ := Storage.FileTree.leads_of_list listed
  have named := Catalog.isName_segmentName id
  have resolved := Storage.FileTree.resolve_join leads named
  have path : Storage.join a.segments (segmentName id) = a.segmentPath id := rfl
  have child : files.node? (place ++ [segmentName id])
      = Storage.FileTree.child? children (segmentName id) := by
    rw [Storage.FileTree.node?_append, there, Option.bind_some,
      Storage.FileTree.node?_name named]
  rw [path, child] at resolved
  rw [Storage.FileTree.isPresent, resolved]
  have known : (Storage.FileTree.child? children (segmentName id)).isSome = true ↔
      segmentName id ∈ children.map (·.1) := by
    rw [Storage.FileTree.child?, Option.isSome_map, List.find?_isSome, List.mem_map]
    simp
  cases Storage.Path.ofText (a.segmentPath id) with
  | error fault => simp [Except.bind, Except.isOk, Except.toBool]
  | ok parsed =>
    rw [← known]
    cases Storage.FileTree.child? children (segmentName id) <;>
      simp [Except.bind, Except.isOk, Except.toBool]

theorem foundOf_selectAll (now : Int64) (id : UInt32) (r : Readout) :
    foundOf selectAll now id r = packetsOf id r := by
  have offered : ∀ e : Entry, offers selectAll e = true := by
    intro e
    simp [offers, Catalog.Mask.includes, Catalog.Mask.ofNames, Catalog.Mask.empty, selectAll,
      Language.Networks.admits]
  have accepted : ∀ p : Packet, selectAll.filter.all (Language.accepts p now) = true :=
    fun p => rfl
  simp only [foundOf, offeredOf, offered, accepted, List.filter_true]
  rfl

theorem not_precedes_self (p : Packet) : ¬ Precedes p p := by
  rintro (lt | ⟨_, lt⟩)
  · exact UInt32.lt_irrefl _ lt
  · exact UInt64.lt_irrefl _ lt

section Catalogue

variable {a : Archive} {files : Files} {extents : List Extent} (c : IsCatalogued a files extents)
include c

theorem ascending_of_nodup (unique : (extents.map (·.segment)).Nodup) :
    extents.Pairwise fun e f => e.segment < f.segment := by
  have apart := List.pairwise_map.mp unique
  exact c.ordered.imp₂ (fun e f le ne => UInt32.lt_of_le_of_ne le ne) apart

/-- Each extent is that of a segment with a packet. -/
theorem packetsOf_ne_nil {e : Extent} (member : e ∈ extents) (now : Int64) :
    ∃ p, p ∈ foundIn a files selectAll now e.segment := by
  obtain ⟨r, read, _, _, extent⟩ := c.tables e member
  rw [foundIn_of_readout? read, foundOf_selectAll]
  cases packets : r.2 with
  | nil =>
    rw [entriesOf, packets] at extent
    cases extent
  | cons p ps =>
    rw [packetsOf, packets]
    exact ⟨_, List.mem_cons_self⟩

/-- A catalogue has each segment once just where no search reports a packet twice. -/
theorem nodup_iff_reported_precedes :
    (extents.map (·.segment)).Nodup ↔
      ∀ options s now, (reported a files extents options s now).Pairwise Precedes := by
  constructor
  · intro unique options s now
    have ascending := segmentsFor_increasing (ascending_of_nodup c unique) options s
    have precedes := foundIn_precedes c s now ascending fun _ member => mem_segmentsFor member
    exact precedes.sublist (within_sublist _ _)
  · intro precedes
    -- a search for everything without pruning takes every extent, and finds a packet in each
    have all : ((extents.map (·.segment)).flatMap (foundIn a files selectAll 0)).Pairwise
        Precedes := precedes ⟨1, false⟩ selectAll 0
    have between := (List.pairwise_flatMap.mp all).2
    rw [List.pairwise_map] at between
    refine List.pairwise_map.mpr (between.imp_of_mem fun {e f} first _ before => ?_)
    intro same
    obtain ⟨p, found⟩ := packetsOf_ne_nil c first 0
    exact not_precedes_self p (before p found p (same ▸ found))

/-- Nothing keeps a search from its end where no segment is taken twice at a time. -/
theorem execute_eq_reported (options : Options) (s : Statement) (now : Int64)
    (apart : options.workers ≤ 1 ∨ (extents.map (·.segment)).Nodup) :
    ∃ r, execute a files options s now = .ok r ∧
      r.answer = answerOf s ((reported a files extents options s now).map
        (Hit.ofPacket (.ofStatement s))) := by
  refine execute_of_catalogued c options s now fun chunk member => ?_
  rcases apart with single | unique
  · have one : max options.workers 1 = 1 := max_eq_right single
    rw [one, chunks_one] at member
    obtain ⟨id, _, rfl⟩ := List.mem_map.mp member
    exact List.pairwise_singleton _ id
  · have ascending := segmentsFor_increasing (ascending_of_nodup c unique) options s
    exact pairwise_of_mem_chunks ascending member

end Catalogue

/-- The numbers of the segments come in order, each as often as a name gives it; so they ascend just
where no two names give one number. A number names a file just where a file has the name that is
written for it. A build makes an extent of each of the numbers whose segment has packets, and no
search reports a packet twice just where no two of these are the same. -/
theorem segments_once_iff {a : Archive} (local_ : ¬ "file:".toList <+: a.index.toList)
    {files : Files} {children : List (String × Files)}
    (listed : files.list a.segments = .ok children) :
    ∃ ids, a.segmentIds files = .ok ids ∧ ids.Perm (numbersIn children) ∧
      ids.Pairwise (· ≤ ·) ∧ (ids.Pairwise (· < ·) ↔ (numbersIn children).Nodup) ∧
      (∀ id, files.isPresent (a.segmentPath id) = true ↔
        (Storage.Path.ofText (a.segmentPath id)).isOk = true ∧
          segmentName id ∈ children.map (·.1)) ∧
      ∀ before report built, before.createDirectories a.index = (.ok (), files) →
        a.buildAll before = (.ok report, built) →
        (∀ id segment, a.openSegment built id = .ok segment →
          segment.data.length ≤ UInt64.size) →
        ∃ extents, a.extents built = .ok extents ∧
          extents.map (·.segment) = ids.filter (fun id => !(packetsIn a files id).isEmpty) ∧
          (∀ options s now, options.workers ≤ 1 ∨ (extents.map (·.segment)).Nodup →
            ∃ r, execute a built options s now = .ok r ∧
              r.answer = answerOf s ((reported a built extents options s now).map
                (Hit.ofPacket (.ofStatement s)))) ∧
          ((extents.map (·.segment)).Nodup ↔
            ∀ options s now, (reported a built extents options s now).Pairwise Precedes) := by
  refine ⟨listedIds children, Archive.segmentIds_eq listed, Catalog.listedIds_perm children,
    Catalog.listedIds_sorted children, Catalog.listedIds_ascending_iff children,
    isPresent_segmentPath listed, fun before report built prepared finished short => ?_⟩
  obtain ⟨made, found, place, prepared', listed', b⟩ :=
    Archive.built_of_buildAll local_ finished
  cases prepared.symm.trans prepared'
  cases listed.symm.trans listed'
  have c := isCatalogued_of_built b (Catalog.listedIds_sorted children) short
  exact ⟨_, b.extents, segment_extentsOf _, execute_eq_reported c,
    nodup_iff_reported_precedes c⟩

section Sample

/-- Segments under the given names. -/
def sampleChildren (segments : List (String × Bytes)) : List (String × Files) :=
  segments.map fun segment => (segment.1, .file (.bytes segment.2))

def sampleNamed (segments : List (String × Bytes)) : Files :=
  .directory [("segments", .directory (sampleChildren segments)), ("index", .directory [])]

variable (segments : List (String × Bytes))

theorem list_sampleNamed :
    (sampleNamed segments).list sampleArchive.segments = .ok (sampleChildren segments) := by
  rfl

theorem createDirectories_sampleNamed :
    (sampleNamed segments).createDirectories sampleArchive.index
      = (.ok (), sampleNamed segments) := by
  rfl

/-- A build of the samples comes to its end. -/
theorem built_sampleNamed (fits : ∀ segment ∈ segments, segment.2.length ≤ UInt64.size) :
    ∃ report built place, sampleArchive.buildAll (sampleNamed segments) = (.ok report, built) ∧
      sampleArchive.Built (sampleNamed segments) built (listedIds (sampleChildren segments)) report
        place ∧
      ∀ id segment, sampleArchive.openSegment built id = .ok segment →
        segment.data.length ≤ UInt64.size := by
  have writable : Catalog.Database.tablesBefore (sampleNamed segments) sampleArchive.extentsPath
      = .ok ⟨none, none⟩ := by
    rfl
  obtain ⟨report, built, place, finished, b⟩ := Archive.buildAll_finishes (by decide)
    (createDirectories_sampleNamed segments) (list_sampleNamed segments) writable
  refine ⟨report, built, place, finished, b, fun id segment opened => ?_⟩
  rw [b.segments] at opened
  obtain ⟨content, member, data⟩ := Archive.data_of_openSegment (list_sampleNamed segments) opened
  obtain ⟨given, inside, same⟩ := List.mem_map.mp member
  cases congrArg Prod.snd same
  rw [data]
  exact fits given inside

/-- A name that writes a number with a sign, beside one that does not. -/
def sampleSigned : List (String × Bytes) :=
  [("1.pcap", sampleSegment 3000), ("+2.pcap", sampleSegment 3000)]

theorem segments_once_signed :
    ¬ "file:".toList <+: sampleArchive.index.toList ∧
      (sampleNamed sampleSigned).list sampleArchive.segments
        = .ok (sampleChildren sampleSigned) ∧
      ∃ ids report built extents,
        sampleArchive.segmentIds (sampleNamed sampleSigned) = .ok ids ∧
        ids.Pairwise (· < ·) ∧
        (sampleNamed sampleSigned).isPresent (sampleArchive.segmentPath 2) = false ∧
        sampleArchive.buildAll (sampleNamed sampleSigned) = (.ok report, built) ∧
        sampleArchive.extents built = .ok extents ∧
        ∀ options s now,
          (reported sampleArchive built extents options s now).Pairwise Precedes := by
  have local_ : ¬ "file:".toList <+: sampleArchive.index.toList := by decide
  have listed := list_sampleNamed sampleSigned
  obtain ⟨ids, found, perm, _, ascending, present, after⟩ := segments_once_iff local_ listed
  obtain ⟨report, built, place, finished, b, short⟩ :=
    built_sampleNamed sampleSigned (by decide +kernel)
  obtain ⟨extents, read, segments, _, once⟩ :=
    after _ report built (createDirectories_sampleNamed _) finished short
  have apart := ascending.mpr (by decide +kernel)
  have unique : (extents.map (·.segment)).Nodup := by
    rw [segments]
    exact (apart.imp UInt32.ne_of_lt).filter _
  have absent : ¬ (sampleNamed sampleSigned).isPresent (sampleArchive.segmentPath 2) = true := by
    rw [present]
    decide +kernel
  exact ⟨local_, listed, ids, report, built, extents, found, apart, by simpa using absent,
    finished, read, once.mp unique⟩

/-- Names that write numbers with leading zeros. -/
def sampleZeros : List (String × Bytes) :=
  [("1.pcap", sampleSegment 3000), ("01.pcap", sampleSegment 3000),
    ("007.pcap", sampleSegment 3000)]

/-- Names with leading zeros give a segment twice, and one that is not there. -/
theorem zeros_name_segment_twice :
    sampleArchive.segmentIds (sampleNamed sampleZeros) = .ok [1, 1, 7] ∧
      (sampleNamed sampleZeros).isPresent (sampleArchive.segmentPath 7) = false ∧
      (sampleArchive.readout? (sampleNamed sampleZeros) 1).map (·.2.length) = some 1 ∧
      ∃ report built r, sampleArchive.buildAll (sampleNamed sampleZeros) = (.ok report, built) ∧
        sampleArchive.extents built = .ok [⟨1, 1000000, 1000000⟩, ⟨1, 1000000, 1000000⟩] ∧
        run sampleArchive built ⟨1, true⟩ selectAllText 0 = .ok r ∧ r.matched = 2 := by
  have ids : listedIds (sampleChildren sampleZeros) = [1, 1, 7] := by
    have numbers : numbersIn (sampleChildren sampleZeros) = [1, 1, 7] := by
      decide +kernel
    rw [listedIds, numbers]
    exact Order.sort_of_pairwise (by decide)
  obtain ⟨report, built, place, finished, b, short⟩ :=
    built_sampleNamed sampleZeros (by decide +kernel)
  rw [ids] at b
  have extents : sampleArchive.extentsOf (sampleNamed sampleZeros) [1, 1, 7]
      = [⟨1, 1000000, 1000000⟩, ⟨1, 1000000, 1000000⟩] := by
    decide +kernel
  have c := isCatalogued_of_built b (by decide) short
  rw [extents] at c
  obtain ⟨r, ran, answer⟩ := execute_eq_reported c ⟨1, true⟩ selectAll 0 (.inl le_rfl)
  have found : foundIn sampleArchive built selectAll 0 1
      = foundIn sampleArchive (sampleNamed sampleZeros) selectAll 0 1 := by
    rw [foundIn, foundIn, Archive.readout?, Archive.readout?, b.segments]
  have one : (foundIn sampleArchive (sampleNamed sampleZeros) selectAll 0 1).length = 1 := by
    decide +kernel
  have twice : reported sampleArchive built [⟨1, 1000000, 1000000⟩, ⟨1, 1000000, 1000000⟩]
        ⟨1, true⟩ selectAll 0
      = foundIn sampleArchive built selectAll 0 1
        ++ (foundIn sampleArchive built selectAll 0 1 ++ []) := by
    rfl
  refine ⟨?_, by decide +kernel, by decide +kernel, report, built, r, finished, c.read, ?_, ?_⟩
  · rw [Archive.segmentIds_eq (list_sampleNamed _), ids]
  · rw [run, parse_selectAllText]
    exact ran
  · refine (congrArg Answer.matched answer).trans ((List.length_map _).trans ?_)
    rw [twice, found, List.append_nil, List.length_append, one]

end Sample

end PacketQuery.Search
