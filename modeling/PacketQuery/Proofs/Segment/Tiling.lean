import Mathlib.Algebra.GroupWithZero.Nat
import PacketQuery.Proofs.Segment.Records
/-!
The records of a segment lie one after another without a gap, whatever its bytes are. What is read
in sequence is found again at its offset, and a fault stands where the last whole record ends.
-/

namespace PacketQuery.Segment

/-- The record that `rest` begins with, if there is a whole one. -/
def recordAt (s : Segment) (offset : Nat) (rest : Bytes) : Captured :=
  let header := rest.take recordHeaderLength
  let fraction := s.order.word32 header 4
  let captured := s.order.word32 header 8
  ⟨offset, s.order.word32 header 0, if s.nanoseconds then fraction / 1000 else fraction, captured,
    s.order.word32 header 12, header, (rest.drop recordHeaderLength).take captured.toNat⟩

theorem readRecord_eq_ok_iff {s : Segment} {offset : Nat} {rest : Bytes} {p : Captured} :
    s.readRecord offset rest = .ok p ↔ p = s.recordAt offset rest ∧
      p.capturedLength.toNat ≤ maxCaptured ∧
      recordHeaderLength + p.capturedLength.toNat ≤ rest.length := by
  unfold readRecord
  dsimp only
  split
  next cut =>
    rw [List.length_take] at cut
    refine ⟨nofun, fun ⟨_, _, room⟩ => ?_⟩
    omega
  next whole =>
    rw [List.length_take] at whole
    split
    next long =>
      refine ⟨nofun, fun ⟨same, fits, _⟩ => ?_⟩
      rw [same] at fits
      exact absurd fits (Nat.not_le.mpr long)
    next fits =>
      split
      next cut =>
        rw [List.length_take, List.length_drop] at cut
        refine ⟨nofun, fun ⟨same, _, room⟩ => ?_⟩
        rw [same] at room
        change recordHeaderLength + (s.order.word32 _ 8).toNat ≤ _ at room
        omega
      next room =>
        rw [List.length_take, List.length_drop] at room
        constructor
        · intro read
          cases read
          refine ⟨rfl, Nat.le_of_not_lt fits, ?_⟩
          change recordHeaderLength + (s.order.word32 _ 8).toNat ≤ _
          omega
        · rintro ⟨rfl, _, _⟩
          rfl

/-- Records that lie in the data one after another from one offset to another, each with the bytes
of its header and its frame. -/
inductive Tiles (data : Bytes) : (start : Nat) → List Captured → (stop : Nat) → Prop
  | done (start : Nat) : Tiles data start [] start
  | next {p : Captured} {cs : List Captured} {stop : Nat}
      (inside : p.offset + recordHeaderLength + p.capturedLength.toNat ≤ data.length)
      (header : p.header = Bytes.slice data p.offset recordHeaderLength)
      (frame : p.frame
        = Bytes.slice data (p.offset + recordHeaderLength) p.capturedLength.toNat)
      (rest : Tiles data (p.offset + recordHeaderLength + p.capturedLength.toNat) cs stop) :
      Tiles data p.offset (p :: cs) stop

theorem Tiles.stop_eq {data : Bytes} {start stop : Nat} {cs : List Captured}
    (tiles : Tiles data start cs stop) :
    stop = start + (cs.map fun p => recordHeaderLength + p.capturedLength.toNat).sum := by
  induction tiles with
  | done => simp
  | next inside header frame rest ih =>
    rw [List.map_cons, List.sum_cons, ih]
    omega

/-- How a reading in sequence ends: with the data, or at a fault before their end. -/
inductive Ends (s : Segment) : (stop : Nat) → List (Except SegmentFault Captured) → Prop
  | whole : Ends s s.data.length []
  | fault {stop : Nat} {fault : SegmentFault} (before : stop < s.data.length)
      (read : s.readRecord stop (s.data.drop stop) = .error fault) : Ends s stop [.error fault]

section Reading

variable {s : Segment} {offset : Nat}

/-- A record that is read takes the bytes from its offset to the end of its frame. -/
theorem readRecord_inside {p : Captured}
    (read : s.readRecord offset (s.data.drop offset) = .ok p) :
    p.offset = offset ∧ offset + recordHeaderLength + p.capturedLength.toNat ≤ s.data.length ∧
      p.header = Bytes.slice s.data offset recordHeaderLength ∧
      p.frame = Bytes.slice s.data (offset + recordHeaderLength) p.capturedLength.toNat := by
  obtain ⟨same, _, room⟩ := readRecord_eq_ok_iff.mp read
  have pos : 0 < recordHeaderLength := by decide
  rw [List.length_drop] at room
  refine ⟨by rw [same]; rfl, by omega, by rw [same]; rfl, ?_⟩
  rw [Bytes.slice, ← List.drop_drop, same]
  rfl

theorem recordsFrom_of_ok {rest : Bytes} {p : Captured} (read : s.readRecord offset rest = .ok p) :
    s.recordsFrom offset rest
      = .ok p :: s.recordsFrom (offset + recordHeaderLength + p.capturedLength.toNat)
        (rest.drop (recordHeaderLength + p.capturedLength.toNat)) := by
  obtain ⟨same, _, room⟩ := readRecord_eq_ok_iff.mp read
  have pos : 0 < recordHeaderLength := by decide
  have nonempty : rest ≠ [] := by
    rintro rfl
    rw [List.length_nil] at room
    omega
  have length : p.frame.length = p.capturedLength.toNat := by
    have frame : p.frame = (rest.drop recordHeaderLength).take p.capturedLength.toNat := by
      rw [same]
      rfl
    rw [frame, List.length_take, List.length_drop]
    omega
  rw [recordsFrom, dif_neg nonempty]
  simp only [read, length, Nat.add_assoc]

theorem recordsFrom_of_error {fault : SegmentFault} (before : offset < s.data.length)
    (read : s.readRecord offset (s.data.drop offset) = .error fault) :
    s.recordsFrom offset (s.data.drop offset) = [.error fault] := by
  have nonempty : s.data.drop offset ≠ [] := by
    rw [Ne, List.drop_eq_nil_iff]
    omega
  rw [recordsFrom, dif_neg nonempty]
  simp only [read]

theorem recordsFrom_tiles (within : offset ≤ s.data.length) :
    ∃ cs stop end_, s.recordsFrom offset (s.data.drop offset) = cs.map .ok ++ end_ ∧
      Tiles s.data offset cs stop ∧ Ends s stop end_ ∧
      ∀ p ∈ cs, offset ≤ p.offset ∧ s.readRecord p.offset (s.data.drop p.offset) = .ok p := by
  -- by what is left of the data behind the offset
  induction left : s.data.length - offset using Nat.strongRecOn generalizing offset with
  | ind n ih =>
    by_cases before : offset < s.data.length
    · cases read : s.readRecord offset (s.data.drop offset) with
      | error fault =>
        exact ⟨[], offset, [.error fault], recordsFrom_of_error before read, .done offset,
          .fault before read, nofun⟩
      | ok p =>
        obtain ⟨start, inside, header, frame⟩ := readRecord_inside read
        subst start
        have pos : 0 < recordHeaderLength := by decide
        have less : s.data.length - (p.offset + recordHeaderLength + p.capturedLength.toNat)
            < n := by omega
        obtain ⟨cs, stop, end_, reads, tiles, ends, found⟩ := ih _ less inside rfl
        refine ⟨p :: cs, stop, end_, ?_, .next inside header frame tiles, ends, ?_⟩
        · rw [recordsFrom_of_ok read, List.drop_drop, ← Nat.add_assoc, reads]
          rfl
        · intro q member
          rcases List.mem_cons.mp member with rfl | later
          · exact ⟨Nat.le_refl _, read⟩
          · obtain ⟨bound, again⟩ := found q later
            exact ⟨by omega, again⟩
    · have stop : offset = s.data.length := by omega
      subst stop
      refine ⟨[], _, [], ?_, .done _, .whole, nofun⟩
      rw [List.drop_length, recordsFrom, dif_pos rfl]
      rfl

end Reading

/-- Whatever follows the file header, the records that are read in sequence tile it from its start
to its end or to the one fault, and each of them is found at its offset. -/
theorem records_tile (path : String) {data : Bytes} (long : headerLength ≤ data.length) :
    ∃ s cs stop end_, ofBytes path data = .ok s ∧ s.data = data ∧
      s.records = cs.map .ok ++ end_ ∧ Tiles data headerLength cs stop ∧ Ends s stop end_ ∧
      ∀ p ∈ cs, s.packetAt? p.offset = some p ∧ s.resolve? p.offset = some (p.header, p.frame) := by
  obtain ⟨s, opened, same⟩ : ∃ s, ofBytes path data = .ok s ∧ s.data = data :=
    ⟨_, if_neg (Nat.not_lt.mpr long), rfl⟩
  subst same
  obtain ⟨cs, stop, end_, reads, tiles, ends, found⟩ := recordsFrom_tiles long
  refine ⟨s, cs, stop, end_, opened, rfl, reads, tiles, ends, fun p member => ?_⟩
  obtain ⟨bound, read⟩ := found p member
  have here : s.packetAt? p.offset = some p := by
    rw [packetAt?, if_neg (Nat.not_lt.mpr bound), read]
    rfl
  exact ⟨here, by rw [resolve?, here]; rfl⟩

/-- A little-endian segment in nanoseconds: one record of one byte, and the start of another. -/
def sampleTorn : Bytes :=
  [0x4D, 0x3C, 0xB2, 0xA1] ++ List.replicate 16 0 ++ [1, 0, 0, 0]
    ++ [7, 0, 0, 0, 0xD0, 7, 0, 0, 1, 0, 0, 0, 1, 0, 0, 0, 0xAA] ++ [5, 5, 5]

def sampleRecord : Captured :=
  ⟨24, 7, 2, 1, 1, [7, 0, 0, 0, 0xD0, 7, 0, 0, 1, 0, 0, 0, 1, 0, 0, 0], [0xAA]⟩

theorem records_tile_torn : headerLength ≤ sampleTorn.length ∧
    ∃ s, ofBytes "a" sampleTorn = .ok s ∧
      s.records = [.ok sampleRecord, .error (.truncated 41 16 3)] ∧
      Tiles sampleTorn 24 [sampleRecord] 41 ∧ s.packetAt? 24 = some sampleRecord ∧
      s.resolve? 24 = some (sampleRecord.header, [0xAA]) := by
  have long : headerLength ≤ sampleTorn.length := by decide
  obtain ⟨s, cs, stop, end_, opened, _, reads, tiles, ends, found⟩ := records_tile "a" long
  have concrete : ofBytes "a" sampleTorn = .ok ⟨"a", sampleTorn, .little, true, 1⟩ := by
    decide +kernel
  cases concrete.symm.trans opened
  have computed : records ⟨"a", sampleTorn, .little, true, 1⟩
      = [.ok sampleRecord, .error (.truncated 41 16 3)] := by
    decide +kernel
  -- the reading ends with the fault, so the one packet before it is the record
  have split : [Except.ok sampleRecord] ++ [.error (.truncated 41 16 3)] = cs.map .ok ++ end_ :=
    computed.symm.trans reads
  cases ends with
  | whole =>
    rw [List.append_nil] at split
    rcases cs with _ | ⟨c, _ | ⟨d, cs⟩⟩ <;> cases split
  | fault before read =>
    obtain ⟨front, _⟩ := List.append_inj' split rfl
    obtain ⟨c, rfl⟩ : ∃ c, cs = [c] := by
      rw [← List.length_eq_one_iff, ← List.length_map (f := Except.ok), ← front]
      rfl
    cases front
    obtain ⟨packet, parts⟩ := found sampleRecord List.mem_cons_self
    have last : stop = 41 := tiles.stop_eq
    exact ⟨long, _, opened, computed, last ▸ tiles, packet, parts⟩

end PacketQuery.Segment
