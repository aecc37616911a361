import PacketQuery.Proofs.Search.Uniqueness
/-!
Pruning by an interval of seconds. A segment is left out if the range of its times, in
microseconds, misses the one from the first microsecond of the first second to the first of the
last. A packet of the last second lies past this by up to a second; a segment that begins with it is
left out although the packet is in the interval. Nothing else in the interval is lost.
-/

namespace PacketQuery.Search

open Catalog (Archive Entry Extent Files Readout entriesOf)
open PacketQuery.Language (BinaryOp Expr Statement)

/-- The whole seconds since the epoch at which a packet was captured. -/
def seconds (p : Packet) : Nat :=
  p.capture.time.toNat / 1000000

/-- A filter, if there is one, and two bounds on the seconds of a packet. -/
def bounded (upper : BinaryOp) (low high : Expr) (filter : Option Expr) : Expr :=
  let after := .binary .atLeast (.field "frame.ts") low
  .binary .and (filter.elim after (.binary .and · after)) (.binary upper (.field "frame.ts") high)

/-- The statement with two bounds on the seconds of packets. -/
def withBounds (upper : BinaryOp) (low high : Expr) (s : Statement) : Statement :=
  { s with filter := some (bounded upper low high s.filter) }

/-- A segment begins in a second, but after its first microsecond. -/
def BeginsInside (e : Extent) (second : Int64) : Prop :=
  ((e.first.toNat / 1000000 : Nat) : Int) = second.toInt ∧ e.first.toNat % 1000000 ≠ 0

section Bounds

theorem field?_seconds (p : Packet) :
    p.field? "frame.ts" = some (.u64 (p.capture.time / 1000000)) := by
  rfl

theorem evaluate_seconds (p : Packet) (now : Int64) :
    ∃ n : Int64, Language.evaluate p now (.field "frame.ts") = .int n ∧ n.toInt = seconds p := by
  have size := p.capture.time.toNat_lt
  have quotient : (p.capture.time / 1000000).toNat = seconds p := UInt64.toNat_div _ _
  have small : seconds p < 2 ^ 63 := by
    unfold seconds
    omega
  have least : Int64.minValue.toInt = -2 ^ 63 := by decide
  have greatest : Int64.maxValue.toInt = 2 ^ 63 - 1 := by decide
  have fits : Number.int64? (seconds p) = some (Int64.ofInt (seconds p)) := by
    rw [Number.int64?, if_pos (by omega)]
  refine ⟨Int64.ofInt (seconds p), ?_, Int64.toInt_ofInt_of_le (by omega) (by omega)⟩
  rw [Language.evaluate, field?_seconds, Option.map_some, Option.getD_some, Value.ofField, quotient,
    fits]

/-- A comparison of the seconds with a bound. -/
theorem accepts_seconds {op : BinaryOp} {test : Ordering → Bool} (tests : op.test? = some test)
    {p : Packet} {now bound : Int64} {e : Expr}
    (value : Language.evaluate p now e = .int bound) :
    Language.accepts p now (.binary op (.field "frame.ts") e)
      = test (compare (seconds p : Int) bound.toInt) := by
  obtain ⟨n, here, same⟩ := evaluate_seconds p now
  have applied : Language.evaluate p now (.binary op (.field "frame.ts") e)
      = op.apply (.int n) (.int bound) := by
    rw [← here, ← value]
    cases op with
    | less | atMost | greater | atLeast => simp only [Language.evaluate]
    | _ => cases tests
  rw [Language.accepts, applied, BinaryOp.apply, tests, ← same]
  rfl

theorem accepts_and (p : Packet) (now : Int64) (left right : Expr) :
    Language.accepts p now (.binary .and left right)
      = (Language.accepts p now left && Language.accepts p now right) := by
  rw [Language.accepts, Language.evaluate]
  rfl

theorem accepts_bounded {upper : BinaryOp} {test : Ordering → Bool}
    (tests : upper.test? = some test) {p : Packet} {now first last : Int64} {low high : Expr}
    (least : Language.evaluate p now low = .int first)
    (greatest : Language.evaluate p now high = .int last) (filter : Option Expr) :
    Language.accepts p now (bounded upper low high filter) = true ↔
      filter.all (Language.accepts p now) = true ∧ first.toInt ≤ seconds p ∧
        test (compare (seconds p : Int) last.toInt) = true := by
  have atLeast : BinaryOp.atLeast.test? = some (· != .lt) := rfl
  have after := accepts_seconds atLeast least
  have before := accepts_seconds tests greatest
  have lower : (compare (seconds p : Int) first.toInt != .lt) = true ↔
      first.toInt ≤ seconds p := by
    rw [bne_iff_ne, ne_eq, Int.compare_eq_lt, Int.not_lt]
  rw [bounded, accepts_and, before, Bool.and_eq_true]
  cases filter with
  | none => simp [after, lower]
  | some f => simp [accepts_and, after, lower, and_assoc]

end Bounds

section Interval

theorem toNat_microseconds (s : Int64) :
    (microseconds s).toNat = min (s.toInt.toNat * 1000000) (2 ^ 64 - 1) := by
  have size : UInt64.size = 2 ^ 64 := rfl
  rw [microseconds, UInt64.toNat_ofNat_of_lt', size]
  omega

variable {e : Extent} {time : UInt64} (inside : e.first ≤ time ∧ time ≤ e.last)
  {first last : Int64} (after : first.toInt ≤ (time.toNat / 1000000 : Nat))
include inside after

/-- Of a segment with a packet in the interval, only where it begins decides. -/
theorem overlaps_iff_first : e.overlaps (microseconds first) (microseconds last) = true ↔
    e.first.toNat ≤ (microseconds last).toNat := by
  have low := UInt64.le_iff_toNat_le.mp inside.2
  have from_ : (microseconds first).toNat ≤ e.last.toNat := by
    rw [toNat_microseconds]
    omega
  rw [Extent.overlaps, Bool.and_eq_true, decide_eq_true_iff, decide_eq_true_iff,
    UInt64.le_iff_toNat_le, UInt64.le_iff_toNat_le]
  exact and_iff_left from_

theorem overlaps_iff_not_beginsInside (before : ((time.toNat / 1000000 : Nat) : Int) ≤ last.toInt) :
    e.overlaps (microseconds first) (microseconds last) = true ↔ ¬ BeginsInside e last := by
  have high := UInt64.le_iff_toNat_le.mp inside.1
  have size := e.first.toNat_lt
  rw [overlaps_iff_first inside after, toNat_microseconds, BeginsInside]
  omega

theorem overlaps_of_lt (before : ((time.toNat / 1000000 : Nat) : Int) < last.toInt) :
    e.overlaps (microseconds first) (microseconds last) = true := by
  have high := UInt64.le_iff_toNat_le.mp inside.1
  have size := e.first.toNat_lt
  rw [overlaps_iff_first inside after, toNat_microseconds]
  omega

end Interval

/-- Searches with bounds on the seconds of packets give one answer, whether segments are pruned by
an interval of the same bounds or not. -/
def PruningAgrees (a : Archive) (files : Files) (upper : BinaryOp) (first last : Int64) : Prop :=
  ∀ (s : Statement) (now : Int64) (low high : Expr) (workers workers' : Nat),
    s.interval = some (first, last) →
    (∀ p, Language.evaluate p now low = .int first) →
    (∀ p, Language.evaluate p now high = .int last) →
    (execute a files ⟨workers, true⟩ (withBounds upper low high s) now).map Result.answer
      = (execute a files ⟨workers', false⟩ (withBounds upper low high s) now).map Result.answer

section Extent

variable {e : Extent} {r : Readout}
  (extent : Extent.ofEntries? e.segment (entriesOf e.segment r) = some e)
include extent

/-- The range of a segment's times runs from one of them and to one of them. -/
theorem times_of_extent :
    ((packetsOf e.segment r).map (·.capture.time)).min? = some e.first ∧
      ((packetsOf e.segment r).map (·.capture.time)).max? = some e.last := by
  have times : (entriesOf e.segment r).map (·.time)
      = (packetsOf e.segment r).map (·.capture.time) := by
    rw [entriesOf, packetsOf, List.map_map, List.map_map]
    rfl
  unfold Extent.ofEntries? at extent
  obtain ⟨first, least, extent⟩ := Option.bind_eq_some_iff.mp extent
  obtain ⟨last, greatest, extent⟩ := Option.bind_eq_some_iff.mp extent
  have bounds := Option.some.inj extent
  rw [← times, least, greatest, ← bounds]
  exact ⟨rfl, rfl⟩

theorem time_inside {p : Packet} (member : p ∈ packetsOf e.segment r) :
    e.first ≤ p.capture.time ∧ p.capture.time ≤ e.last := by
  obtain ⟨least, greatest⟩ := times_of_extent extent
  have time := List.mem_map_of_mem (f := fun p : Packet => p.capture.time) member
  exact ⟨(List.min?_eq_some_iff.mp least).2 _ time, (List.max?_eq_some_iff.mp greatest).2 _ time⟩

theorem exists_first : ∃ p ∈ packetsOf e.segment r, p.capture.time = e.first := by
  obtain ⟨least, _⟩ := times_of_extent extent
  exact List.mem_map.mp (List.min?_eq_some_iff.mp least).1

end Extent

section Catalogue

variable {a : Archive} {files : Files} {extents : List Extent} (c : IsCatalogued a files extents)
  (unique : (extents.map (·.segment)).Nodup) {first last : Int64}

/-- What pruning leaves out shows in no answer if the statement finds nothing there. -/
theorem reported_pruned {s : Statement} (interval : s.interval = some (first, last)) {now : Int64}
    (lost : ∀ e ∈ extents, e.overlaps (microseconds first) (microseconds last) = false →
      foundIn a files s now e.segment = []) (workers workers' : Nat) :
    reported a files extents ⟨workers, true⟩ s now
      = reported a files extents ⟨workers', false⟩ s now := by
  simp only [reported, segmentsFor, interval, List.flatMap_map]
  rw [flatMap_filter_of_nil lost]

include c

/-- A packet that a bounded statement finds. -/
theorem mem_foundIn_bounded {upper : BinaryOp} {test : Ordering → Bool}
    (tests : upper.test? = some test) {s : Statement} {now : Int64} {low high : Expr}
    (least : ∀ p, Language.evaluate p now low = .int first)
    (greatest : ∀ p, Language.evaluate p now high = .int last) {e : Extent}
    (member : e ∈ extents) {p : Packet}
    (found : p ∈ foundIn a files (withBounds upper low high s) now e.segment) :
    e.first ≤ p.capture.time ∧ p.capture.time ≤ e.last ∧ first.toInt ≤ seconds p ∧
      test (compare (seconds p : Int) last.toInt) = true := by
  obtain ⟨r, read, _, _, extent⟩ := c.tables e member
  rw [foundIn_of_readout? read] at found
  have there := (foundOf_sublist _ now e.segment r).subset found
  have accepted := (List.mem_filter.mp found).2
  rw [withBounds, Option.all_some, accepts_bounded tests (least p) (greatest p)] at accepted
  obtain ⟨low_, high_⟩ := time_inside extent there
  exact ⟨low_, high_, accepted.2⟩

include unique

theorem pruningAgrees_of_lost {upper : BinaryOp}
    (lost : ∀ (s : Statement) (now : Int64) (low high : Expr),
      (∀ p, Language.evaluate p now low = .int first) →
      (∀ p, Language.evaluate p now high = .int last) →
      ∀ e ∈ extents, e.overlaps (microseconds first) (microseconds last) = false →
        foundIn a files (withBounds upper low high s) now e.segment = []) :
    PruningAgrees a files upper first last := by
  intro s now low high workers workers' interval least greatest
  let within := withBounds upper low high s
  obtain ⟨r, ran, answer⟩ := execute_eq_reported c ⟨workers, true⟩ within now (.inr unique)
  obtain ⟨r', ran', answer'⟩ := execute_eq_reported c ⟨workers', false⟩ within now (.inr unique)
  have same := reported_pruned (s := within) interval (lost s now low high least greatest)
    workers workers'
  rw [ran, ran', Except.map, Except.map, answer, answer', same]

/-- Up to a second that is itself left out, pruning loses nothing. -/
theorem pruningAgrees_less : PruningAgrees a files .less first last := by
  refine pruningAgrees_of_lost c unique fun s now low high least greatest e member pruned => ?_
  refine List.eq_nil_iff_forall_not_mem.mpr fun p found => ?_
  have tests : BinaryOp.less.test? = some (· == .lt) := rfl
  obtain ⟨from_, to_, after, before⟩ := mem_foundIn_bounded c tests least greatest member found
  have kept := overlaps_of_lt ⟨from_, to_⟩ after (Int.compare_eq_lt.mp (eq_of_beq before))
  exact absurd (kept.symm.trans pruned) (by decide)

/-- A search for everything in an interval that agrees keeps the segment of each packet that lies
in the interval. -/
theorem overlaps_of_agrees (agrees : PruningAgrees a files .atMost first last) {e : Extent}
    (member : e ∈ extents) {r : Readout} (read : a.readout? files e.segment = some r) {p : Packet}
    (there : p ∈ packetsOf e.segment r) (after : first.toInt ≤ seconds p)
    (before : (seconds p : Int) ≤ last.toInt) :
    e.overlaps (microseconds first) (microseconds last) = true := by
  let s : Statement := { selectAll with interval := some (first, last) }
  let within := withBounds .atMost (.integer first) (.integer last) s
  obtain ⟨r₁, ran₁, answer₁⟩ := execute_eq_reported c ⟨1, true⟩ within 0 (.inr unique)
  obtain ⟨r₂, ran₂, answer₂⟩ := execute_eq_reported c ⟨1, false⟩ within 0 (.inr unique)
  have literal : ∀ (n : Int64) (p : Packet), Language.evaluate p 0 (.integer n) = .int n :=
    fun n p => by rw [Language.evaluate]
  have same := agrees s 0 (.integer first) (.integer last) 1 1 rfl (literal first) (literal last)
  rw [ran₁, ran₂] at same
  have answers : r₁.answer = r₂.answer := Except.ok.inj same
  have count := congrArg Answer.matched (answer₁.symm.trans (answers.trans answer₂))
  -- what is found with pruning is a part of what is found without, and as long
  have part : (reported a files extents ⟨1, true⟩ within 0).Sublist
      (reported a files extents ⟨1, false⟩ within 0) :=
    List.Sublist.flatMap (List.filter_sublist.map _) _
  have all := part.eq_of_length (by simpa [answerOf] using count)
  have accepted : within.filter.all (Language.accepts p 0) = true := by
    have tests : BinaryOp.atMost.test? = some (· != .gt) := rfl
    have bounds := accepts_bounded tests (literal first p) (literal last p) none
    refine bounds.mpr ⟨rfl, after, ?_⟩
    rw [bne_iff_ne, ne_eq, Int.compare_eq_gt, Int.not_lt]
    exact before
  have found : p ∈ foundIn a files within 0 e.segment := by
    rw [foundIn_of_readout? read]
    have offered := foundOf_selectAll 0 e.segment r
    refine List.mem_filter.mpr ⟨?_, accepted⟩
    rw [← offered] at there
    exact (List.mem_filter.mp there).1
  have reported_ : p ∈ reported a files extents ⟨1, false⟩ within 0 :=
    List.mem_flatMap.mpr ⟨_, List.mem_map_of_mem member, found⟩
  rw [← all] at reported_
  obtain ⟨_, kept, found'⟩ := List.mem_flatMap.mp reported_
  obtain ⟨f, pruned, rfl⟩ := List.mem_map.mp kept
  obtain ⟨inside, overlaps⟩ := List.mem_filter.mp pruned
  obtain ⟨r', read', _⟩ := c.tables f inside
  rw [foundIn_of_readout? read'] at found'
  have segment := segment_of_mem_packetsOf ((foundOf_sublist _ _ _ _).subset found')
  have segment' := segment_of_mem_packetsOf there
  obtain rfl := List.inj_on_of_nodup_map unique inside member (segment.symm.trans segment')
  exact overlaps

/-- Up to a second that is taken in, pruning loses just the segments that begin inside it. -/
theorem pruningAgrees_atMost_iff : PruningAgrees a files .atMost first last ↔
    (first.toInt ≤ last.toInt → ∀ e ∈ extents, ¬ BeginsInside e last) := by
  constructor
  · intro agrees ordered e member begins
    obtain ⟨r, read, _, _, extent⟩ := c.tables e member
    obtain ⟨p, there, time⟩ := exists_first extent
    have second : (seconds p : Int) = last.toInt := by
      rw [seconds, time]
      exact begins.1
    have after : first.toInt ≤ seconds p := by omega
    have kept := overlaps_of_agrees c unique agrees member read there after second.le
    have inside := time_inside extent there
    exact (overlaps_iff_not_beginsInside inside after second.le).mp kept begins
  · intro clear
    refine pruningAgrees_of_lost c unique fun s now low high least greatest e member pruned => ?_
    refine List.eq_nil_iff_forall_not_mem.mpr fun p found => ?_
    have tests : BinaryOp.atMost.test? = some (· != .gt) := rfl
    obtain ⟨from_, to_, after, test⟩ := mem_foundIn_bounded c tests least greatest member found
    have before : (seconds p : Int) ≤ last.toInt := by
      rwa [bne_iff_ne, ne_eq, Int.compare_eq_gt, Int.not_lt] at test
    have begins := clear (after.trans before) e member
    have kept := (overlaps_iff_not_beginsInside ⟨from_, to_⟩ after before).mpr begins
    exact absurd (kept.symm.trans pruned) (by decide)

end Catalogue

/-- After a build, pruning by an interval of seconds leaves out the segment of a packet in the
interval just where the segment begins inside the last second. So searches bounded by the interval
give one answer with pruning and without just where no segment begins there, and always if their
last second is left out. -/
theorem interval_pruning_iff {a : Archive} (local_ : ¬ "file:".toList <+: a.index.toList)
    {files built : Files} {report : Catalog.BuildReport}
    (finished : a.buildAll files = (.ok report, built))
    (short : ∀ id segment, a.openSegment built id = .ok segment →
      segment.data.length ≤ UInt64.size) :
    ∃ extents, a.extents built = .ok extents ∧ ∀ first last : Int64,
      (∀ e ∈ extents, ∃ r, a.readout? built e.segment = some r ∧
        ∀ p ∈ packetsOf e.segment r, first.toInt ≤ seconds p → (seconds p : Int) ≤ last.toInt →
          (e.overlaps (microseconds first) (microseconds last) = true ↔
            ¬ BeginsInside e last)) ∧
      ((extents.map (·.segment)).Nodup →
        (PruningAgrees a built .atMost first last ↔
          (first.toInt ≤ last.toInt → ∀ e ∈ extents, ¬ BeginsInside e last)) ∧
        PruningAgrees a built .less first last) := by
  obtain ⟨made, children, place, _, _, b⟩ := Archive.built_of_buildAll local_ finished
  have c := isCatalogued_of_built b (Catalog.listedIds_sorted children) short
  refine ⟨_, b.extents, fun first last => ⟨fun e member => ?_, fun unique => ?_⟩⟩
  · obtain ⟨r, read, _, _, extent⟩ := c.tables e member
    exact ⟨r, read, fun p there after before =>
      overlaps_iff_not_beginsInside (time_inside extent there) after before⟩
  · exact ⟨pruningAgrees_atMost_iff c unique, pruningAgrees_less c unique⟩

section Sample

/-- A segment with one datagram, half a second after the second 100. -/
def sampleLate : List (String × Bytes) :=
  [("1.pcap", Segment.Draft.toBytes
    { packets := [(100, 500000, Assembly.udpFrame [10, 0, 0, 2] [10, 0, 0, 3] 1000 2000 [])] })]

theorem interval_pruning_next_second :
    ¬ "file:".toList <+: sampleArchive.index.toList ∧
      ∃ report built, sampleArchive.buildAll (sampleNamed sampleLate) = (.ok report, built) ∧
        (∀ id segment, sampleArchive.openSegment built id = .ok segment →
          segment.data.length ≤ UInt64.size) ∧
        sampleArchive.extents built = .ok [⟨1, 100500000, 100500000⟩] ∧
        PruningAgrees sampleArchive built .atMost 100 101 := by
  have local_ : ¬ "file:".toList <+: sampleArchive.index.toList := by decide
  obtain ⟨report, built, place, finished, b, short⟩ :=
    built_sampleNamed sampleLate (by decide +kernel)
  have ids : Catalog.listedIds (sampleChildren sampleLate) = [1] := by
    decide +kernel
  have extents : sampleArchive.extentsOf (sampleNamed sampleLate) [1]
      = [⟨1, 100500000, 100500000⟩] := by
    decide +kernel
  have read := b.extents
  rw [ids, extents] at read
  obtain ⟨_, read', pruning⟩ := interval_pruning_iff local_ finished short
  cases read.symm.trans read'
  have agrees := ((pruning 100 101).2 (List.nodup_singleton _)).1.mpr
  refine ⟨local_, report, built, finished, short, read, agrees fun _ e member => ?_⟩
  cases List.mem_singleton.mp member
  rintro ⟨second, _⟩
  revert second
  decide

/-- A packet half a second into the last second of an interval, in which its segment begins. -/
theorem pruning_loses_packet :
    let built := (sampleArchive.buildAll (sampleNamed sampleLate)).2
    let text := "select * from a where frame.ts >= 100 and frame.ts <= 100 interval 100 to 100"
    (sampleArchive.buildAll (sampleNamed sampleLate)).1.map (·.packets) = .ok 1 ∧
      (run sampleArchive built ⟨1, false⟩ text 0).map (·.matched) = .ok 1 ∧
      (run sampleArchive built ⟨1, true⟩ text 0).map (·.matched) = .ok 0 := by
  decide +kernel

end Sample

end PacketQuery.Search
