import PacketQuery.Proofs.Segment.Tiling
/-!
A segment that is cut off behind its file header. What can be read of it are the packets of the
whole segment that end before the cut, and it shows whether the cut went through a record. Only
where it did not is the segment catalogued.
-/

namespace PacketQuery

open Catalog (Entry)

/-- Where the record of a packet ends. -/
def Captured.stop (p : Captured) : Nat :=
  p.offset + Segment.recordHeaderLength + p.capturedLength.toNat

namespace Segment

/-- The packets that are read, up to the first fault. -/
def readable (s : Segment) : List Captured :=
  s.records.filterMap Except.toOption

/-- The segment without what follows its first `n` bytes. -/
def cutAt (s : Segment) (n : Nat) : Segment :=
  { s with data := s.data.take n }

theorem Tiles.start_lt_stop {data : Bytes} {start stop : Nat} {cs : List Captured}
    (tiles : Tiles data start cs stop) : ∀ p ∈ cs, start < p.stop := by
  induction tiles with
  | done => simp
  | @next p cs stop _ _ _ _ ih =>
    have first : p.offset < p.stop := by simp only [Captured.stop, recordHeaderLength]; omega
    intro q member
    rcases List.mem_cons.mp member with rfl | later
    · exact first
    · exact Nat.lt_trans first (ih q later)

section Step

variable {s : Segment} {n offset m : Nat} {rest : Bytes} {p : Captured}

/-- A cut behind the header of a record leaves all of it but the end of the frame. -/
theorem recordAt_take (header : recordHeaderLength ≤ m) :
    (s.cutAt n).recordAt offset (rest.take m)
      = { s.recordAt offset rest with
          frame := (s.recordAt offset rest).frame.take (m - recordHeaderLength) } := by
  have same : (rest.take m).take recordHeaderLength = rest.take recordHeaderLength := by
    rw [List.take_take, Nat.min_eq_left header]
  simp only [recordAt, cutAt, same, List.drop_take, List.take_take, Nat.min_comm]

/-- A record is read before a cut if it is read without the cut and ends before it. -/
theorem readRecord_take (inside : m ≤ rest.length) :
    (s.cutAt n).readRecord offset (rest.take m) = .ok p ↔
      s.readRecord offset rest = .ok p ∧ p.stop ≤ offset + m := by
  rw [readRecord_eq_ok_iff, readRecord_eq_ok_iff, List.length_take, Nat.min_eq_left inside]
  have short : (s.recordAt offset rest).frame.length
      ≤ (s.recordAt offset rest).capturedLength.toNat := List.length_take_le _ _
  constructor
  · rintro ⟨same, fits, room⟩
    rw [recordAt_take (by omega)] at same
    have announced : p.capturedLength = (s.recordAt offset rest).capturedLength := by rw [same]
    have place : p.offset = offset := by rw [same]; rfl
    rw [List.take_of_length_le (by rw [announced] at room; omega)] at same
    exact ⟨⟨same, fits, by omega⟩, by rw [Captured.stop, place]; omega⟩
  · rintro ⟨⟨rfl, fits, _⟩, room⟩
    have place : (s.recordAt offset rest).offset = offset := rfl
    rw [Captured.stop, place] at room
    refine ⟨?_, fits, by omega⟩
    rw [recordAt_take (by omega), List.take_of_length_le (by omega)]

end Step

/-- The cut leaves the file header, so that the rest is read in the same way. -/
theorem ofBytes_take {path : String} {data : Bytes} {s : Segment} {n : Nat}
    (opened : ofBytes path data = .ok s) (header : headerLength ≤ n) (inside : n ≤ data.length) :
    ofBytes path (data.take n) = .ok (s.cutAt n) := by
  simp only [headerLength] at header
  have part : ∀ i k, i + k ≤ 24 → Bytes.slice (data.take n) i k = Bytes.slice data i k := by
    intro i k fits
    rw [Bytes.slice, List.drop_take, List.take_take, Nat.min_eq_left (by omega), Bytes.slice]
  have magic : (data.take n).take 4 = data.take 4 := part 0 4 (by omega)
  have link : ∀ order : ByteOrder, order.word32 (data.take n) 20 = order.word32 data 20 := by
    intro order
    cases order <;> rw [ByteOrder.word32, part 20 4 (by omega), ByteOrder.word32]
  rw [ofBytes, if_neg (by simp only [headerLength]; omega)] at opened
  cases opened
  rw [ofBytes, if_neg (by simp only [headerLength, List.length_take]; omega), magic]
  simp only [link]
  rfl

/-- How a reading from `start` on ends at a cut behind `n` bytes: at its start or at the end of one
of the packets, or else with a fault. -/
inductive CutEnds (start n : Nat) (cs : List Captured) :
    List (Except SegmentFault Captured) → Prop
  | reached : (n = start ∨ ∃ p ∈ cs, p.stop = n) → CutEnds start n cs []
  | fault (fault : SegmentFault) : n ≠ start → (∀ p ∈ cs, p.stop ≠ n) →
    CutEnds start n cs [.error fault]

namespace CutEnds

variable {start n : Nat} {cs : List Captured} {tail : List (Except SegmentFault Captured)}

theorem behind {p : Captured} (h : CutEnds p.stop n cs tail) (before : start < p.stop)
    (whole : p.stop ≤ n) : CutEnds start n (p :: cs) tail := by
  cases h with
  | reached stops =>
    refine .reached (.inr ?_)
    rcases stops with here | ⟨q, member, there⟩
    · exact ⟨p, List.mem_cons_self, here.symm⟩
    · exact ⟨q, List.mem_cons_of_mem p member, there⟩
  | fault fault apart others =>
    exact .fault fault (by omega) (List.forall_mem_cons.mpr ⟨Ne.symm apart, others⟩)

theorem exists_error_iff (h : CutEnds start n cs tail) :
    (∃ fault, .error fault ∈ tail) ↔ n ≠ start ∧ ∀ p ∈ cs, p.stop ≠ n := by
  cases h with
  | reached stops =>
    simp only [List.not_mem_nil, exists_false, false_iff]
    rintro ⟨apart, others⟩
    rcases stops with here | ⟨p, member, there⟩
    · exact apart here
    · exact others p member there
  | fault fault apart others => exact ⟨fun _ => ⟨apart, others⟩, fun _ => ⟨fault, by simp⟩⟩

end CutEnds

section Run

variable {s : Segment} {n offset : Nat} (inside : n ≤ s.data.length)
include inside

theorem cutAt_read_iff {p : Captured} (before : offset ≤ n) :
    (s.cutAt n).readRecord offset ((s.cutAt n).data.drop offset) = .ok p ↔
      s.readRecord offset (s.data.drop offset) = .ok p ∧ p.stop ≤ n := by
  have room : n - offset ≤ (s.data.drop offset).length := by
    rw [List.length_drop]
    omega
  have data : (s.cutAt n).data.drop offset = (s.data.drop offset).take (n - offset) :=
    List.drop_take
  rw [data, readRecord_take room, Nat.add_sub_cancel' before]

/-- Where no whole record stands before the cut, the reading shows none of the packets behind it and
ends: at the cut, or with a fault. -/
theorem cutAt_stops {cs : List Captured} (before : offset ≤ n)
    (unread : ∀ p, s.readRecord offset (s.data.drop offset) = .ok p → n < p.stop)
    (beyond : ∀ p ∈ cs, n < p.stop) :
    ∃ tail, (s.cutAt n).recordsFrom offset ((s.cutAt n).data.drop offset)
        = (cs.filter (·.stop ≤ n)).map .ok ++ tail ∧ CutEnds offset n cs tail := by
  have length : (s.cutAt n).data.length = n := by
    rw [cutAt, List.length_take, Nat.min_eq_left inside]
  have none : cs.filter (·.stop ≤ n) = [] := by
    refine List.filter_eq_nil_iff.mpr fun p member => ?_
    simpa using beyond p member
  rw [none]
  by_cases reached : n = offset
  · have empty : (s.cutAt n).data.drop offset = [] :=
      List.drop_eq_nil_of_le (by omega)
    rw [recordsFrom, dif_pos empty]
    exact ⟨[], rfl, .reached (.inl reached)⟩
  · cases read : (s.cutAt n).readRecord offset ((s.cutAt n).data.drop offset) with
    | ok p =>
      obtain ⟨whole, stop⟩ := (cutAt_read_iff inside before).mp read
      exact absurd (unread p whole) (by omega)
    | error fault =>
      exact ⟨_, recordsFrom_of_error (by omega) read,
        .fault fault reached fun p member => Nat.ne_of_gt (beyond p member)⟩

/-- From a place between two records on: the packets that end before the cut, then a fault unless
one of them ends at it. -/
theorem recordsFrom_cutAt {cs : List Captured} {stop : Nat}
    {end_ : List (Except SegmentFault Captured)} (tiles : Tiles s.data offset cs stop)
    (ends : Ends s stop end_)
    (found : ∀ p ∈ cs, s.readRecord p.offset (s.data.drop p.offset) = .ok p)
    (before : offset ≤ n) :
    ∃ tail, (s.cutAt n).recordsFrom offset ((s.cutAt n).data.drop offset)
        = (cs.filter (·.stop ≤ n)).map .ok ++ tail ∧ CutEnds offset n cs tail := by
  induction tiles with
  | done offset =>
    refine cutAt_stops inside before (fun p read => ?_) (by simp)
    cases ends with
    | whole =>
      obtain ⟨_, room, _⟩ := readRecord_inside read
      simp only [recordHeaderLength] at room
      omega
    | fault _ fails => rw [fails] at read; cases read
  | @next p cs stop _ _ _ rest ih =>
    have read := found p List.mem_cons_self
    by_cases whole : p.stop ≤ n
    · obtain ⟨tail, reads, shown⟩ :=
        ih ends (fun q member => found q (List.mem_cons_of_mem p member)) whole
      have kept := (cutAt_read_iff inside before).mpr ⟨read, whole⟩
      have start : p.offset < p.stop := by simp only [Captured.stop, recordHeaderLength]; omega
      refine ⟨tail, ?_, shown.behind start whole⟩
      rw [recordsFrom_of_ok kept, List.drop_drop, ← Nat.add_assoc,
        List.filter_cons_of_pos (by simpa using whole), List.map_cons, List.cons_append, ← reads]
    -- the cut goes through this record, and all others end behind it
    · have beyond : ∀ q ∈ p :: cs, n < q.stop := by
        have later : ∀ q ∈ cs, p.stop < q.stop := rest.start_lt_stop
        have here : n < p.stop := by omega
        exact List.forall_mem_cons.mpr
          ⟨here, fun q member => Nat.lt_trans here (later q member)⟩
      refine cutAt_stops inside before (fun q again => ?_) beyond
      rw [read] at again
      cases again
      exact beyond p List.mem_cons_self

end Run

theorem readable_of_split {s : Segment} {cs : List Captured}
    {tail : List (Except SegmentFault Captured)} (reads : s.records = cs.map .ok ++ tail)
    (faults : ∀ x ∈ tail, ∃ fault, x = .error fault) : s.readable = cs := by
  have none : tail.filterMap Except.toOption = [] := by
    refine List.filterMap_eq_nil_iff.mpr fun x member => ?_
    obtain ⟨fault, rfl⟩ := faults x member
    rfl
  rw [readable, reads, List.filterMap_append, none, List.append_nil, List.filterMap_map]
  exact List.filterMap_some

theorem readable_of_all {s : Segment} {cs : List Captured} (reads : s.records = cs.map .ok) :
    s.readable = cs := by
  have split : s.records = cs.map .ok ++ [] := by rw [reads, List.append_nil]
  exact readable_of_split split (by simp)

/-- Without a fault there is an entry for every packet, with a fault none at all. -/
theorem ofSegment_eq_ok_iff {set : List Protocol} {id : UInt32} {s : Segment}
    {entries : List Entry} :
    Entry.ofSegment set id s = .ok entries ↔ (¬ ∃ fault, .error fault ∈ s.records) ∧
      entries = s.readable.map fun p => .ofPacket (.ofCaptured set s.linkType id p) := by
  have each : Entry.ofSegment set id s = s.packets.map fun cs =>
      cs.map fun p => .ofPacket (.ofCaptured set s.linkType id p) := mapM_map _ s.records
  rw [each]
  constructor
  · intro made
    cases whole : s.packets with
    | error fault => rw [whole] at made; cases made
    | ok cs =>
      have reads := packets_eq_ok_iff.mp whole
      rw [whole] at made
      refine ⟨?_, ?_⟩
      · rintro ⟨fault, member⟩
        rw [reads] at member
        simp at member
      · rw [readable_of_all reads]
        exact (Except.ok.inj made).symm
  · rintro ⟨faultless, rfl⟩
    obtain ⟨cs, reads⟩ := exists_eq_map_ok faultless
    rw [packets_eq_ok_iff.mpr reads, readable_of_all reads]
    rfl

/-- A file that is cut off behind its header holds the packets that end before the cut. Reading it
meets a fault exactly if the cut is not at the end of a packet or of the header, and exactly then
it is not catalogued; otherwise there is an entry for each packet. -/
theorem readable_cutAt (path : String) {data : Bytes} {n : Nat} (header : headerLength ≤ n)
    (inside : n ≤ data.length) :
    ∃ s cut, ofBytes path data = .ok s ∧ ofBytes path (data.take n) = .ok cut ∧
      cut.readable = s.readable.filter (·.stop ≤ n) ∧
      ((∃ fault, .error fault ∈ cut.records) ↔
        n ≠ headerLength ∧ ∀ p ∈ s.readable, p.stop ≠ n) ∧
      ∀ set id,
        ((∃ entries, Entry.ofSegment set id cut = .ok entries) ↔
          ¬ ∃ fault, .error fault ∈ cut.records) ∧
        ∀ entries, Entry.ofSegment set id cut = .ok entries →
          entries.map (fun e => (e.offset, e.time))
            = cut.readable.map fun p => (UInt64.ofNat p.offset, p.time) := by
  obtain ⟨s, opened, rfl⟩ : ∃ s, ofBytes path data = .ok s ∧ s.data = data :=
    ⟨_, if_neg (by omega), rfl⟩
  have shorter := ofBytes_take opened header inside
  obtain ⟨cs, stop, end_, reads, tiles, ends, found⟩ :=
    recordsFrom_tiles (s := s) (Nat.le_trans header inside)
  have own : s.readable = cs := readable_of_split reads (by cases ends <;> simp)
  obtain ⟨tail, cutReads, shown⟩ :=
    recordsFrom_cutAt inside tiles ends (fun p member => (found p member).2) header
  have kept : (s.cutAt n).readable = cs.filter (·.stop ≤ n) :=
    readable_of_split cutReads (by cases shown <;> simp)
  have faulty : (∃ fault, .error fault ∈ (s.cutAt n).records) ↔
      n ≠ headerLength ∧ ∀ p ∈ cs, p.stop ≠ n := by
    rw [← shown.exists_error_iff]
    change (∃ fault, .error fault ∈ (s.cutAt n).recordsFrom headerLength _) ↔ _
    rw [cutReads]
    simp
  refine ⟨s, s.cutAt n, opened, shorter, by rw [kept, own], by rw [own, faulty],
    fun set id => ⟨?_, ?_⟩⟩
  · exact ⟨fun ⟨entries, made⟩ => (ofSegment_eq_ok_iff.mp made).1,
      fun faultless => ⟨_, ofSegment_eq_ok_iff.mpr ⟨faultless, rfl⟩⟩⟩
  · intro entries made
    obtain ⟨_, rfl⟩ := ofSegment_eq_ok_iff.mp made
    rw [List.map_map]
    rfl

/-- Cut at the end of its record the segment is catalogued, cut in the next header it is not. -/
theorem readable_cutAt_torn : headerLength ≤ 41 ∧ 43 ≤ sampleTorn.length ∧
    (∃ cut, ofBytes "a" (sampleTorn.take 41) = .ok cut ∧ cut.readable = [sampleRecord] ∧
      ∃ entries, Entry.ofSegment Protocol.all 7 cut = .ok entries ∧
        entries.map (fun e => (e.offset, e.time)) = [(24, 7000002)]) ∧
    ∃ cut, ofBytes "a" (sampleTorn.take 43) = .ok cut ∧ cut.readable = [sampleRecord] ∧
      ∀ entries, Entry.ofSegment Protocol.all 7 cut ≠ .ok entries := by
  have header : headerLength ≤ 41 := by decide
  have inside : 43 ≤ sampleTorn.length := by decide
  have concrete : ofBytes "a" sampleTorn = .ok ⟨"a", sampleTorn, .little, true, 1⟩ := by
    decide +kernel
  have whole : readable ⟨"a", sampleTorn, .little, true, 1⟩ = [sampleRecord] := by
    decide +kernel
  have ends : sampleRecord.stop = 41 := rfl
  refine ⟨header, inside, ?_, ?_⟩
  · obtain ⟨s, cut, opened, shorter, kept, faulty, entries⟩ :=
      readable_cutAt "a" header (Nat.le_trans (by decide) inside)
    cases concrete.symm.trans opened
    rw [whole] at kept faulty
    have faultless : ¬ ∃ fault, .error fault ∈ cut.records := by
      rw [faulty]
      exact fun ⟨_, others⟩ => others sampleRecord List.mem_cons_self ends
    obtain ⟨made, shown⟩ := entries Protocol.all 7
    obtain ⟨es, made⟩ := made.mpr faultless
    refine ⟨cut, shorter, kept, es, made, ?_⟩
    rw [shown es made, kept]
    rfl
  · obtain ⟨s, cut, opened, shorter, kept, faulty, entries⟩ :=
      readable_cutAt "a" (Nat.le_trans header (by decide)) inside
    cases concrete.symm.trans opened
    rw [whole] at kept faulty
    have fault : ∃ fault, .error fault ∈ cut.records := by
      rw [faulty]
      refine ⟨by decide, fun p member => ?_⟩
      rw [List.mem_singleton.mp member, ends]
      decide
    exact ⟨cut, shorter, kept, fun es made => (entries Protocol.all 7).1.mp ⟨es, made⟩ fault⟩

end Segment

end PacketQuery
