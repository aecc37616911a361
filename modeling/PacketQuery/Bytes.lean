/-!
Byte strings as lists, the fixed-width numbers written in them in either byte order, and their
hexadecimal text. The length laws say that a written number takes exactly its width.
-/

namespace PacketQuery

/-- A byte string, first byte first. -/
abbrev Bytes := List UInt8

namespace Bytes

/-- The number that `bs` writes, most significant byte first. -/
def toNatBE (bs : Bytes) : Nat :=
  bs.foldl (fun n b => n * 256 + b.toNat) 0

/-- The low `width` bytes of `n`, most significant first. -/
def ofNatBE : Nat → Nat → Bytes
  | 0, _ => []
  | width + 1, n => ofNatBE width (n / 256) ++ [UInt8.ofNat n]

@[simp] theorem length_ofNatBE (width n : Nat) : (ofNatBE width n).length = width := by
  induction width generalizing n with
  | zero => rfl
  | succ width ih => simp [ofNatBE, ih]

/-- The `length` bytes from position `start`, fewer where the string ends before. -/
def slice (bs : Bytes) (start length : Nat) : Bytes :=
  (bs.drop start).take length

theorem length_slice (bs : Bytes) (start length : Nat) :
    (slice bs start length).length = min length (bs.length - start) := by
  simp [slice]

/-- The `length` bytes from position `start`, if the string holds all of them. -/
def slice? (bs : Bytes) (start length : Nat) : Option Bytes :=
  if start + length ≤ bs.length then some (slice bs start length) else none

/-- The byte at position `i`; zero past the end. -/
def byte (bs : Bytes) (i : Nat) : UInt8 :=
  bs.getD i 0

def word16 (bs : Bytes) (i : Nat) : UInt16 :=
  UInt16.ofNat (toNatBE (slice bs i 2))

def word32 (bs : Bytes) (i : Nat) : UInt32 :=
  UInt32.ofNat (toNatBE (slice bs i 4))

def hexDigit (n : Nat) : Char :=
  if n < 10 then Char.ofNat (48 + n) else Char.ofNat (87 + n)

def hexPair (b : UInt8) : List Char :=
  [hexDigit (b.toNat / 16), hexDigit (b.toNat % 16)]

def toHex (bs : Bytes) : String :=
  String.ofList (bs.flatMap hexPair)

end Bytes

/-- Which end of a number its first byte is. -/
inductive ByteOrder
  | big
  | little
  deriving DecidableEq, Repr

namespace ByteOrder

/-- The 32-bit number written at position `i`. -/
def word32 (order : ByteOrder) (bs : Bytes) (i : Nat) : UInt32 :=
  match order with
  | big => UInt32.ofNat (Bytes.toNatBE (Bytes.slice bs i 4))
  | little => UInt32.ofNat (Bytes.toNatBE (Bytes.slice bs i 4).reverse)

/-- The `width` bytes that write `n`. -/
def write (order : ByteOrder) (width n : Nat) : Bytes :=
  match order with
  | big => Bytes.ofNatBE width n
  | little => (Bytes.ofNatBE width n).reverse

@[simp] theorem length_write (order : ByteOrder) (width n : Nat) :
    (order.write width n).length = width := by
  cases order <;> simp [write]

end ByteOrder

end PacketQuery
