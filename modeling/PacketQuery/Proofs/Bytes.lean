import Mathlib.Algebra.GroupWithZero.Nat
import PacketQuery.Bytes
/-!
Parts of a byte string are found where they begin and do not change with what comes after, and
written numbers are read back.
-/

namespace PacketQuery

theorem forall_byte {p : UInt8 → Prop} (all : ∀ n < 256, p (UInt8.ofNat n)) (b : UInt8) : p b := by
  have byte := all b.toNat b.toNat_lt
  rwa [UInt8.ofNat_toNat] at byte

theorem toNatBE_ofNatBE (width n : Nat) :
    Bytes.toNatBE (Bytes.ofNatBE width n) = n % 256 ^ width := by
  induction width generalizing n with
  | zero => exact (Nat.mod_one n).symm
  | succ width ih =>
    have last : ∀ bs b, Bytes.toNatBE (bs ++ [b]) = Bytes.toNatBE bs * 256 + b.toNat := by
      intro bs b
      rw [Bytes.toNatBE, List.foldl_append]
      rfl
    rw [Bytes.ofNatBE, last, ih, Nat.pow_succ', Nat.mod_mul, UInt8.toNat_ofNat']
    omega

namespace Bytes

theorem foldl_octets_lt (bs : Bytes) (n : Nat) :
    bs.foldl (fun n b => n * 256 + b.toNat) n < (n + 1) * 256 ^ bs.length := by
  induction bs generalizing n with
  | nil => simp
  | cons b bs ih =>
    have octet := b.toNat_lt
    calc bs.foldl (fun n b => n * 256 + b.toNat) (n * 256 + b.toNat)
      _ < (n * 256 + b.toNat + 1) * 256 ^ bs.length := ih _
      _ ≤ (n + 1) * 256 * 256 ^ bs.length := Nat.mul_le_mul_right _ (by omega)
      _ = (n + 1) * 256 ^ (bs.length + 1) := by rw [Nat.pow_succ', Nat.mul_assoc]

theorem toNatBE_slice_lt (bs : Bytes) (start length : Nat) :
    toNatBE (slice bs start length) < 256 ^ length := by
  have short : (slice bs start length).length ≤ length := List.length_take_le _ _
  calc toNatBE (slice bs start length)
    _ < (0 + 1) * 256 ^ (slice bs start length).length := foldl_octets_lt _ 0
    _ ≤ 256 ^ length := by
      rw [Nat.zero_add, Nat.one_mul]
      exact Nat.pow_le_pow_right (by decide) short

theorem toNat_byte (bs : Bytes) (i : Nat) : (byte bs i).toNat = toNatBE (slice bs i 1) := by
  rw [byte, slice, List.take_one, List.head?_drop, List.getD_eq_getElem?_getD]
  cases bs[i]? <;> simp [toNatBE]

theorem toNat_word16 (bs : Bytes) (i : Nat) : (word16 bs i).toNat = toNatBE (slice bs i 2) :=
  UInt16.toNat_ofNat_of_lt' (toNatBE_slice_lt bs i 2)

theorem toNat_word32 (bs : Bytes) (i : Nat) : (word32 bs i).toNat = toNatBE (slice bs i 4) :=
  UInt32.toNat_ofNat_of_lt' (toNatBE_slice_lt bs i 4)

theorem slice_part {before part : Bytes} {i n : Nat} (start : before.length = i)
    (size : part.length = n) (after : Bytes) : slice (before ++ (part ++ after)) i n = part := by
  rw [slice, List.drop_left' start, List.take_left' size]

section Append

variable {bs : Bytes} {i : Nat}

theorem byte_append (inside : i < bs.length) (after : Bytes) :
    byte (bs ++ after) i = byte bs i := by
  rw [byte, List.getD_eq_getElem?_getD, List.getElem?_append_left inside,
    ← List.getD_eq_getElem?_getD, byte]

theorem slice_append {n : Nat} (inside : i + n ≤ bs.length) (after : Bytes) :
    slice (bs ++ after) i n = slice bs i n := by
  have rest : n ≤ (bs.drop i).length := by
    rw [List.length_drop]
    omega
  rw [slice, List.drop_append_of_le_length (by omega), List.take_append_of_le_length rest, slice]

theorem word16_append (inside : i + 2 ≤ bs.length) (after : Bytes) :
    word16 (bs ++ after) i = word16 bs i := by
  rw [word16, slice_append inside, word16]

theorem word32_append (inside : i + 4 ≤ bs.length) (after : Bytes) :
    word32 (bs ++ after) i = word32 bs i := by
  rw [word32, slice_append inside, word32]

end Append

section Word

variable {bs : Bytes} {i : Nat}

theorem word16_eq_ofNat {n : Nat} (part : slice bs i 2 = ofNatBE 2 n) :
    word16 bs i = UInt16.ofNat n := by
  rw [word16, part, toNatBE_ofNatBE]
  exact UInt16.ofNat_mod_size

theorem word16_eq {n : UInt16} (part : slice bs i 2 = ofNatBE 2 n.toNat) : word16 bs i = n := by
  rw [word16_eq_ofNat part, UInt16.ofNat_toNat]

theorem word32_eq {n : UInt32} (part : slice bs i 4 = ofNatBE 4 n.toNat) : word32 bs i = n := by
  have wraps : UInt32.ofNat (n.toNat % 256 ^ 4) = UInt32.ofNat n.toNat := UInt32.ofNat_mod_size
  rw [word32, part, toNatBE_ofNatBE, wraps, UInt32.ofNat_toNat]

end Word

end Bytes

namespace ByteOrder

/-- A number of 32 bits that is written somewhere is read there. -/
theorem word32_write (order : ByteOrder) {before : Bytes} {i : Nat} (start : before.length = i)
    (n : Nat) (after : Bytes) :
    order.word32 (before ++ (order.write 4 n ++ after)) i = UInt32.ofNat n := by
  have part := Bytes.slice_part start (order.length_write 4 n) after
  have wraps : UInt32.ofNat (n % 256 ^ 4) = UInt32.ofNat n := UInt32.ofNat_mod_size
  cases order with
  | big => rw [word32, part, write, toNatBE_ofNatBE, wraps]
  | little => rw [word32, part, write, List.reverse_reverse, toNatBE_ofNatBE, wraps]

end ByteOrder

end PacketQuery
