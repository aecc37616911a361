import PacketQuery.Proofs.Bytes
import PacketQuery.Proofs.Segment.Tiling
import PacketQuery.Segment.Writer
/-!
A segment that is written is read back: the packets that it was made of, each at the sum of the
lengths before it. Only the bytes of the headers depend on the byte order.
-/

namespace PacketQuery

/-- The packet apart from the bytes of its header. -/
def Captured.unheaded (p : Captured) : Captured :=
  { p with header := [] }

namespace Segment

namespace Draft

variable (d : Draft)

/-- What is read of a packet whose record is written at `offset`. -/
def captureAt (offset : Nat) (p : UInt32 × UInt32 × Bytes) : Captured :=
  ⟨offset, p.1, p.2.1, UInt32.ofNat p.2.2.length, UInt32.ofNat p.2.2.length,
    (d.record p).take recordHeaderLength, p.2.2⟩

/-- What is read of packets whose records are written from `offset` on. -/
def capturesFrom : (offset : Nat) → List (UInt32 × UInt32 × Bytes) → List Captured
  | _, [] => []
  | offset, p :: ps =>
    d.captureAt offset p :: capturesFrom (offset + (recordHeaderLength + p.2.2.length)) ps

def captures : List Captured :=
  d.capturesFrom headerLength d.packets

/-- The segment that is written, opened at `path`. -/
def segment (path : String) : Segment :=
  ⟨path, d.toBytes, d.order, false, d.linkType.toUInt16⟩

theorem length_header : d.header.length = headerLength := by
  simp [header, headerLength]

theorem ofBytes_toBytes (path : String) : ofBytes path d.toBytes = .ok (d.segment path) := by
  have long : ¬ d.toBytes.length < headerLength := by
    rw [toBytes, List.length_append, length_header]
    omega
  have magic : d.toBytes.take 4 = d.order.write 4 0xA1B2C3D4 := by
    simp only [toBytes, header, List.append_assoc]
    exact List.take_left' (by simp)
  have told : format (d.order.write 4 0xA1B2C3D4) = (d.order, false) := by
    cases d.order <;> decide
  have link : d.order.word32 d.toBytes 20 = d.linkType := by
    have start : (d.order.write 4 0xA1B2C3D4 ++ d.order.write 2 2 ++ d.order.write 2 4
        ++ d.order.write 4 0 ++ d.order.write 4 0 ++ d.order.write 4 65535).length = 20 := by
      simp
    have read := d.order.word32_write start d.linkType.toNat (d.packets.flatMap d.record)
    rwa [UInt32.ofNat_toNat, ← List.append_assoc] at read
  rw [ofBytes, if_neg long, magic, told]
  dsimp only
  rw [link]
  rfl

theorem length_record (p : UInt32 × UInt32 × Bytes) :
    (d.record p).length = recordHeaderLength + p.2.2.length := by
  simp [record, recordHeaderLength, ← Nat.add_assoc]

/-- The header of a record: four numbers, each read where it was written. -/
theorem words_read (order : ByteOrder) (a b c e : Nat) :
    let w := order.write 4
    let header := w a ++ (w b ++ (w c ++ w e))
    order.word32 header 0 = UInt32.ofNat a ∧ order.word32 header 4 = UInt32.ofNat b ∧
      order.word32 header 8 = UInt32.ofNat c ∧ order.word32 header 12 = UInt32.ofNat e := by
  intro w header
  have two : (w a ++ w b).length = 8 := by simp [w]
  have three : (w a ++ (w b ++ w c)).length = 12 := by simp [w]
  have third := order.word32_write two c (w e)
  have fourth := order.word32_write three e []
  rw [List.append_assoc] at third
  rw [List.append_assoc, List.append_assoc, List.append_nil] at fourth
  exact ⟨order.word32_write List.length_nil a (w b ++ (w c ++ w e)),
    order.word32_write (order.length_write 4 a) b (w c ++ w e), third, fourth⟩

variable {d} {s : Segment} (order : s.order = d.order) (micro : s.nanoseconds = false)
include order micro

theorem readRecord_record {p : UInt32 × UInt32 × Bytes} (short : p.2.2.length ≤ maxCaptured)
    (offset : Nat) (more : Bytes) :
    s.readRecord offset (d.record p ++ more) = .ok (d.captureAt offset p) := by
  obtain ⟨seconds, fraction, frame⟩ := p
  dsimp only at short
  have size : (UInt32.ofNat frame.length).toNat = frame.length :=
    UInt32.toNat_ofNat_of_lt' (Nat.lt_of_le_of_lt short (by decide))
  obtain ⟨first, second, third, fourth⟩ :=
    words_read d.order seconds.toNat fraction.toNat frame.length frame.length
  -- from here on the header is one part
  have split : d.record (seconds, fraction, frame) = (d.order.write 4 seconds.toNat
      ++ (d.order.write 4 fraction.toNat ++ (d.order.write 4 frame.length
        ++ d.order.write 4 frame.length))) ++ frame := by
    simp [record]
  have length := d.length_record (seconds, fraction, frame)
  rw [split, List.length_append, Nat.add_right_cancel_iff] at length
  rw [UInt32.ofNat_toNat] at first second
  generalize d.order.write 4 seconds.toNat ++ (d.order.write 4 fraction.toNat
    ++ (d.order.write 4 frame.length ++ d.order.write 4 frame.length)) = header
    at first second third fourth split length
  have read : (d.record (seconds, fraction, frame) ++ more).take recordHeaderLength = header ∧
      (d.record (seconds, fraction, frame) ++ more).drop recordHeaderLength = frame ++ more ∧
      (d.record (seconds, fraction, frame)).take recordHeaderLength = header := by
    rw [split, List.append_assoc]
    exact ⟨List.take_left' length, List.drop_left' length, List.take_left' length⟩
  obtain ⟨taken, left, own⟩ := read
  have same : d.captureAt offset (seconds, fraction, frame)
      = s.recordAt offset (d.record (seconds, fraction, frame) ++ more) := by
    simp only [captureAt, recordAt, taken, left, own, order, micro, first, second, third, fourth,
      size, Bool.false_eq_true, if_false, List.take_left]
  have room : (d.record (seconds, fraction, frame) ++ more).length
      = recordHeaderLength + frame.length + more.length := by
    rw [List.length_append, length_record]
  refine readRecord_eq_ok_iff.mpr ⟨same, ?_, ?_⟩
  · exact Nat.le_trans (Nat.le_of_eq size) short
  · change recordHeaderLength + (UInt32.ofNat frame.length).toNat ≤ _
    rw [room, size]
    exact Nat.le_add_right _ _

theorem recordsFrom_records {ps : List (UInt32 × UInt32 × Bytes)}
    (short : ∀ p ∈ ps, p.2.2.length ≤ maxCaptured) (offset : Nat) :
    s.recordsFrom offset (ps.flatMap d.record) = (d.capturesFrom offset ps).map .ok := by
  induction ps generalizing offset with
  | nil =>
    rw [List.flatMap_nil, recordsFrom, dif_pos rfl]
    rfl
  | cons p ps ih =>
    have fits := short p List.mem_cons_self
    have read := readRecord_record order micro fits offset (ps.flatMap d.record)
    have size : (UInt32.ofNat p.2.2.length).toNat = p.2.2.length :=
      UInt32.toNat_ofNat_of_lt' (Nat.lt_of_le_of_lt fits (by decide))
    have behind : (d.record p ++ ps.flatMap d.record).drop
        (recordHeaderLength + p.2.2.length) = ps.flatMap d.record :=
      List.drop_left' (d.length_record p)
    have rest := ih (fun q member => short q (List.mem_cons_of_mem p member))
      (offset + (recordHeaderLength + p.2.2.length))
    rw [List.flatMap_cons, recordsFrom_of_ok read]
    change _ :: s.recordsFrom (offset + recordHeaderLength + (UInt32.ofNat p.2.2.length).toNat)
      (List.drop (recordHeaderLength + (UInt32.ofNat p.2.2.length).toNat) _) = _
    rw [size, behind, Nat.add_assoc, rest]
    rfl

omit order micro

section Whole

variable {d : Draft} (short : ∀ p ∈ d.packets, p.2.2.length ≤ maxCaptured)
include short

theorem records_segment (path : String) : (d.segment path).records = d.captures.map .ok := by
  have behind : (d.segment path).data.drop headerLength = d.packets.flatMap d.record :=
    List.drop_left' d.length_header
  rw [records, behind]
  exact recordsFrom_records rfl rfl short headerLength

theorem packets_segment (path : String) : (d.segment path).packets = .ok d.captures := by
  rw [Segment.packets, records_segment short, mapM_map_ok]

end Whole

theorem capturesFrom_packets (d : Draft) (offset : Nat) (ps : List (UInt32 × UInt32 × Bytes)) :
    (d.capturesFrom offset ps).map (fun c => (c.seconds, c.microseconds, c.frame)) = ps := by
  induction ps generalizing offset with
  | nil => rfl
  | cons p ps ih => rw [capturesFrom, List.map_cons, ih]; rfl

theorem capturesFrom_lengths (d : Draft) {offset : Nat} {ps : List (UInt32 × UInt32 × Bytes)} :
    ∀ c ∈ d.capturesFrom offset ps,
      c.capturedLength = UInt32.ofNat c.frame.length ∧ c.originalLength = c.capturedLength := by
  induction ps generalizing offset with
  | nil => nofun
  | cons p ps ih =>
    intro c member
    rcases List.mem_cons.mp member with rfl | later
    · exact ⟨rfl, rfl⟩
    · exact ih c later

theorem capturesFrom_offset (d : Draft) {offset i : Nat} {ps : List (UInt32 × UInt32 × Bytes)}
    {c : Captured} (found : (d.capturesFrom offset ps)[i]? = some c) :
    c.offset = offset + ((ps.take i).map fun p => recordHeaderLength + p.2.2.length).sum := by
  induction ps generalizing offset i with
  | nil => cases found
  | cons p ps ih =>
    cases i with
    | zero =>
      cases found
      rfl
    | succ i =>
      rw [ih found, List.take_succ_cons, List.map_cons, List.sum_cons]
      omega

/-- What is kept and made of packets that are read, without regard to their places. -/
theorem capturesFrom_filter_map (d : Draft) {α : Type} {keep : Captured → Bool}
    {make : Captured → α} {keep' : UInt32 × UInt32 × Bytes → Bool}
    {make' : UInt32 × UInt32 × Bytes → α}
    (kept : ∀ offset p, keep (d.captureAt offset p) = keep' p)
    (made : ∀ offset p, make (d.captureAt offset p) = make' p) (offset : Nat)
    (ps : List (UInt32 × UInt32 × Bytes)) :
    ((d.capturesFrom offset ps).filter keep).map make = (ps.filter keep').map make' := by
  induction ps generalizing offset with
  | nil => rfl
  | cons p ps ih =>
    have rest := ih (offset + (recordHeaderLength + p.2.2.length))
    rw [capturesFrom, List.filter_cons, List.filter_cons, kept]
    split
    next => rw [List.map_cons, List.map_cons, made, rest]
    next => exact rest

/-- Two drafts in different byte orders differ in the bytes of headers alone. -/
theorem capturesFrom_unheaded (d e : Draft) (offset : Nat)
    (ps : List (UInt32 × UInt32 × Bytes)) :
    (d.capturesFrom offset ps).map Captured.unheaded
      = (e.capturesFrom offset ps).map Captured.unheaded := by
  induction ps generalizing offset with
  | nil => rfl
  | cons p ps ih => rw [capturesFrom, capturesFrom, List.map_cons, List.map_cons, ih]; rfl

/-- A segment that is written in either byte order is read to its end without a fault. The packets
are those that were given, with their lengths, each at the sum of the lengths before it. -/
theorem records_toBytes (path : String) {linkType : UInt32} (link : linkType.toNat < 2 ^ 16)
    {ps : List (UInt32 × UInt32 × Bytes)} (short : ∀ p ∈ ps, p.2.2.length ≤ maxCaptured) :
    ∃ cs : List Captured,
      cs.map (fun c => (c.seconds, c.microseconds, c.frame)) = ps ∧
      (∀ c ∈ cs, c.capturedLength.toNat = c.frame.length ∧
        c.originalLength.toNat = c.frame.length) ∧
      (∀ i c, cs[i]? = some c → c.offset
        = headerLength + ((ps.take i).map fun p => recordHeaderLength + p.2.2.length).sum) ∧
      ∀ order, ∃ s, ofBytes path (toBytes ⟨order, linkType, ps⟩) = .ok s ∧ s.order = order ∧
        s.linkType.toNat = linkType.toNat ∧
        s.records.map (·.map Captured.unheaded) = cs.map .ok := by
  let d (order : ByteOrder) : Draft := ⟨order, linkType, ps⟩
  refine ⟨(d .big).captures.map Captured.unheaded, ?_, ?_, ?_, fun order => ?_⟩
  · rw [List.map_map]
    exact capturesFrom_packets (d .big) headerLength ps
  · intro c member
    obtain ⟨c, inside, rfl⟩ := List.mem_map.mp member
    obtain ⟨captured, original⟩ := (d .big).capturesFrom_lengths c inside
    have given : (c.seconds, c.microseconds, c.frame) ∈ ps := by
      have there := List.mem_map_of_mem (f := fun c : Captured =>
        (c.seconds, c.microseconds, c.frame)) inside
      rwa [captures, capturesFrom_packets] at there
    have size : c.capturedLength.toNat = c.frame.length := by
      rw [captured]
      exact UInt32.toNat_ofNat_of_lt' (Nat.lt_of_le_of_lt (short _ given) (by decide))
    exact ⟨size, (congrArg UInt32.toNat original).trans size⟩
  · intro i c found
    rw [List.getElem?_map] at found
    obtain ⟨c, there, rfl⟩ := Option.map_eq_some_iff.mp found
    have sum := (d .big).capturesFrom_offset there
    exact sum
  · refine ⟨(d order).segment path, ofBytes_toBytes _ path, rfl, ?_, ?_⟩
    · exact Nat.mod_eq_of_lt link
    · rw [records_segment short, List.map_map, captures, captures,
        capturesFrom_unheaded (d .big) (d order)]
      rw [List.map_map]
      rfl

/-- Two packets, the second without bytes, in a segment of another link type. -/
theorem records_toBytes_pair : (228 : UInt32).toNat < 2 ^ 16 ∧
    (∀ p ∈ [((1, 2, [7, 8, 9]) : UInt32 × UInt32 × Bytes), (3, 4, [])],
      p.2.2.length ≤ maxCaptured) ∧
    ∃ first second : Captured, first.offset = 24 ∧ first.frame = [7, 8, 9] ∧
      second.offset = 43 ∧ second.capturedLength = 0 ∧
      ∀ order, ∃ s, ofBytes "a" (toBytes ⟨order, 228, [(1, 2, [7, 8, 9]), (3, 4, [])]⟩) = .ok s ∧
        s.linkType = 228 ∧ s.records.map (·.map Captured.unheaded) = [.ok first, .ok second] := by
  have link : (228 : UInt32).toNat < 2 ^ 16 := by decide
  have short : ∀ p ∈ [((1, 2, [7, 8, 9]) : UInt32 × UInt32 × Bytes), (3, 4, [])],
      p.2.2.length ≤ maxCaptured := by decide
  obtain ⟨cs, packets, lengths, offsets, read⟩ := records_toBytes "a" link short
  obtain ⟨first, second, rfl⟩ : ∃ first second, cs = [first, second] := by
    rw [← List.length_eq_two]
    simpa using congrArg List.length packets
  obtain ⟨head, rest⟩ := List.cons.inj packets
  obtain ⟨next, _⟩ := List.cons.inj rest
  have frame : first.frame = [7, 8, 9] := congrArg (·.2.2) head
  have none : second.frame = [] := congrArg (·.2.2) next
  have zero : second.capturedLength.toNat = 0 := by
    rw [(lengths second (by simp)).1, none]
    rfl
  refine ⟨link, short, first, second, offsets 0 first rfl, frame, offsets 1 second rfl,
    UInt32.toNat_inj.mp zero, fun order => ?_⟩
  obtain ⟨s, opened, _, type, reads⟩ := read order
  exact ⟨s, opened, UInt16.toNat_inj.mp type, reads⟩

end Draft

end Segment

end PacketQuery
