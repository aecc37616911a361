import PacketQuery.Bytes
/-!
Capture segments: a 24-byte file header, then records of a 16-byte header and the captured bytes
of one frame. Records are read one after another from the start or at a given offset. A read in
sequence ends at the first record that is cut off or too long.
-/

namespace PacketQuery

/-- Why a segment or one of its records could not be read. -/
inductive SegmentFault
  | notFound (path : String)
  /-- The bytes are no segment or no record, for the reason given. -/
  | invalid (reason : String)
  /-- The record at `offset` needs `expected` bytes where `actual` are left. -/
  | truncated (offset expected actual : Nat)
  deriving DecidableEq, Repr

namespace Segment

def headerLength : Nat := 24

def recordHeaderLength : Nat := 16

/-- The most bytes of a frame. -/
def maxCaptured : Nat := 262144

end Segment

def SegmentFault.message : SegmentFault → String
  | notFound path => "File not found: " ++ path
  | invalid reason => "Invalid PCAP format: " ++ reason
  | truncated offset expected actual =>
    "Truncated packet at offset " ++ toString offset ++ ": expected " ++ toString expected
      ++ " bytes, got " ++ toString actual

/-- The file at `path` has `length` bytes, fewer than its header. -/
def SegmentFault.noHeader (path : String) (length : Nat) : SegmentFault :=
  invalid (path ++ ": " ++ toString length ++ " bytes is too small for a segment header")

/-- The record at `offset` announces `length` bytes, more than any frame has. -/
def SegmentFault.tooLong (length offset : Nat) : SegmentFault :=
  invalid ("captured length " ++ toString length ++ " at offset " ++ toString offset
    ++ " exceeds " ++ toString Segment.maxCaptured)

structure Captured where
  /-- Where its record starts. -/
  offset : Nat
  seconds : UInt32
  microseconds : UInt32
  capturedLength : UInt32
  originalLength : UInt32
  /-- The record's header as it stands in the file. -/
  header : Bytes
  frame : Bytes
  deriving DecidableEq, Repr

/-- The time of capture, in microseconds since the epoch. -/
def Captured.time (p : Captured) : UInt64 :=
  p.seconds.toUInt64 * 1000000 + p.microseconds.toUInt64

/-- The bytes of a segment with what its header says of them. -/
structure Segment where
  path : String
  data : Bytes
  order : ByteOrder
  /-- Fractions of a second are counted in nanoseconds. -/
  nanoseconds : Bool
  linkType : UInt16
  deriving DecidableEq, Repr

namespace Segment

/-- Byte order and unit of fractions told by the first four bytes; any other four mean
microseconds in big-endian order. -/
def format (magic : Bytes) : ByteOrder × Bool :=
  match magic with
  | [0xA1, 0xB2, 0xC3, 0xD4] => (.big, false)
  | [0xA1, 0xB2, 0x3C, 0x4D] => (.big, true)
  | [0xD4, 0xC3, 0xB2, 0xA1] => (.little, false)
  | [0x4D, 0x3C, 0xB2, 0xA1] => (.little, true)
  | _ => (.big, false)

/-- The segment with the given bytes, named by `path` in faults. -/
def ofBytes (path : String) (data : Bytes) : Except SegmentFault Segment :=
  if data.length < headerLength then .error (.noHeader path data.length)
  else
    let (order, nanoseconds) := format (data.take 4)
    .ok ⟨path, data, order, nanoseconds, (order.word32 data 20).toUInt16⟩

/-- The record at the head of `rest`, which starts at `offset`. -/
def readRecord (s : Segment) (offset : Nat) (rest : Bytes) : Except SegmentFault Captured :=
  let header := rest.take recordHeaderLength
  if header.length < recordHeaderLength then
    .error (.truncated offset recordHeaderLength header.length)
  else
    let fraction := s.order.word32 header 4
    let captured := s.order.word32 header 8
    -- A length that no frame has is told of even where the file ends before it.
    if maxCaptured < captured.toNat then .error (.tooLong captured.toNat offset)
    else
      let frame := (rest.drop recordHeaderLength).take captured.toNat
      if frame.length < captured.toNat then
        .error (.truncated offset captured.toNat frame.length)
      else
        .ok ⟨offset, s.order.word32 header 0, if s.nanoseconds then fraction / 1000 else fraction,
          captured, s.order.word32 header 12, header, frame⟩

/-- The records of `rest`, which starts at `offset`, up to the first fault. -/
def recordsFrom (s : Segment) (offset : Nat) (rest : Bytes) :
    List (Except SegmentFault Captured) :=
  if _h : rest = [] then []
  else
    match s.readRecord offset rest with
    | .error fault => [.error fault]
    | .ok p =>
      .ok p :: recordsFrom s (offset + (recordHeaderLength + p.frame.length))
        (rest.drop (recordHeaderLength + p.frame.length))
termination_by rest.length
decreasing_by
  have := List.length_pos_iff.mpr _h
  simp only [List.length_drop, recordHeaderLength]
  omega

/-- Every record in the order of the file, up to the first fault. -/
def records (s : Segment) : List (Except SegmentFault Captured) :=
  s.recordsFrom headerLength (s.data.drop headerLength)

/-- The packet whose record starts at `offset`, if a whole one does. -/
def packetAt? (s : Segment) (offset : Nat) : Option Captured :=
  if offset < headerLength then none
  else (s.readRecord offset (s.data.drop offset)).toOption

/-- The header and frame of the packet whose record starts at `offset`. -/
def resolve? (s : Segment) (offset : Nat) : Option (Bytes × Bytes) :=
  (s.packetAt? offset).map fun p => (p.header, p.frame)

/-- There is nothing after the file header. -/
def isEmpty (s : Segment) : Bool :=
  s.data.length ≤ headerLength

end Segment

end PacketQuery
