import Mathlib
import PacketQuery.Number.Double
/-!
Integers as doubles. A whole number is brought to 53 bits by shifts that remember what they drop,
then rounded; its bits as a double are its exponent and its mantissa added up, so that a mantissa
that rounding makes too long carries into the exponent. Hence rounding keeps the order of integers.
-/

namespace PacketQuery.Number

open Float.Model
open UnpackedFloat (Sign ExtendedMantissa Accuracy)

namespace Mantissa

/-- A mantissa with its two residual bits as one number. -/
def residue (m : ExtendedMantissa) : Nat :=
  4 * m.mantissa + 2 * m.roundBit.toNat + m.stickyBit.toNat

/-- A shift drops the lowest of the bits, but does not forget whether it was set. -/
theorem residue_shiftRightOne (m : ExtendedMantissa) :
    residue m.shiftRightOne = 2 * (residue m / 4) + min 1 (residue m % 4) := by
  obtain ⟨mantissa, roundBit, stickyBit⟩ := m
  have parity : (mantissa % 2 != 0).toNat = mantissa % 2 := by
    rcases Nat.mod_two_eq_zero_or_one mantissa with even | odd
    · simp [even]
    · simp [odd]
  simp only [ExtendedMantissa.shiftRightOne, residue, parity]
  cases roundBit <;> cases stickyBit <;> simp <;> omega

theorem shiftRight_zero (m : ExtendedMantissa) : m >>> 0 = m := rfl

theorem shiftRight_succ (m : ExtendedMantissa) (n : Nat) :
    m >>> (n + 1) = (m >>> n).shiftRightOne := rfl

theorem residue_shiftRight_mono {a b : ExtendedMantissa} (le : residue a ≤ residue b) (n : Nat) :
    residue (a >>> n) ≤ residue (b >>> n) := by
  induction n with
  | zero => exact le
  | succ n ih =>
    rw [shiftRight_succ, shiftRight_succ, residue_shiftRightOne, residue_shiftRightOne]
    omega

theorem mantissa_shiftRight (m : ExtendedMantissa) (n : Nat) :
    (m >>> n).mantissa = m.mantissa / 2 ^ n := by
  induction n with
  | zero => simp [shiftRight_zero]
  | succ n ih =>
    rw [shiftRight_succ, ExtendedMantissa.shiftRightOne, ih, Nat.div_div_eq_div_mul, Nat.pow_succ]

/-- A half goes to the even neighbour, and what is past the half upward. -/
theorem roundedMantissa_eq (m : ExtendedMantissa) :
    m.roundedMantissa = (residue m + 1 + m.mantissa % 2) / 4 := by
  obtain ⟨mantissa, roundBit, stickyBit⟩ := m
  cases roundBit <;> cases stickyBit <;>
    simp only [ExtendedMantissa.roundedMantissa, ExtendedMantissa.accuracy,
      Accuracy.roundToNearestEven, residue, Bool.toNat_true, Bool.toNat_false] <;>
    omega

theorem mantissa_eq_residue (m : ExtendedMantissa) : m.mantissa = residue m / 4 := by
  obtain ⟨mantissa, roundBit, stickyBit⟩ := m
  cases roundBit <;> cases stickyBit <;> simp [residue] <;> omega

theorem roundedMantissa_mono {a b : ExtendedMantissa} (le : residue a ≤ residue b) :
    a.roundedMantissa ≤ b.roundedMantissa := by
  rw [roundedMantissa_eq, roundedMantissa_eq, mantissa_eq_residue, mantissa_eq_residue]
  rcases Nat.lt_or_eq_of_le (Nat.div_le_div_right (c := 4) le) with lt | same
  · omega
  · rw [same]
    omega

theorem roundedMantissa_bounds (m : ExtendedMantissa) :
    m.mantissa ≤ m.roundedMantissa ∧ m.roundedMantissa ≤ m.mantissa + 1 := by
  have whole := mantissa_eq_residue m
  rw [roundedMantissa_eq]
  omega

end Mantissa

/-- A whole number brought to a mantissa of 53 bits, and to one bit more where rounding carries. -/
def significand (n : Nat) : Nat :=
  ((⟨n <<< (52 - n.log2), false, false⟩ : ExtendedMantissa) >>> (n.log2 - 52)).roundedMantissa

theorem log2_eq {n k : Nat} (low : 2 ^ k ≤ n) (high : n < 2 ^ (k + 1)) : n.log2 = k :=
  (Nat.log2_eq_iff (by have := Nat.two_pow_pos k; omega)).mpr ⟨low, high⟩

theorem log2_shiftLeft {n : Nat} (positive : n ≠ 0) (places : Nat) :
    (n <<< places).log2 = n.log2 + places := by
  have low := Nat.mul_le_mul_right (2 ^ places) (Nat.log2_self_le positive)
  have high := Nat.mul_lt_mul_of_pos_right (Nat.lt_log2_self (n := n)) (Nat.two_pow_pos places)
  rw [← Nat.pow_add] at low high
  rw [Nat.shiftLeft_eq]
  exact log2_eq low (by rwa [Nat.add_right_comm])

/-- The mantissa before it is rounded. -/
theorem mantissa_bounds {n : Nat} (positive : n ≠ 0) :
    2 ^ 52 ≤ n <<< (52 - n.log2) / 2 ^ (n.log2 - 52) ∧
      n <<< (52 - n.log2) / 2 ^ (n.log2 - 52) < 2 ^ 53 := by
  have bits := log2_shiftLeft positive (52 - n.log2)
  have width : n.log2 + (52 - n.log2) = 52 + (n.log2 - 52) := by omega
  rw [width] at bits
  have shifted : n <<< (52 - n.log2) ≠ 0 := by
    rw [Nat.shiftLeft_eq]
    exact Nat.mul_ne_zero positive (Nat.ne_of_gt (Nat.two_pow_pos _))
  obtain ⟨low, high⟩ := (Nat.log2_eq_iff shifted).mp bits
  constructor
  · rw [Nat.le_div_iff_mul_le (Nat.two_pow_pos _), ← Nat.pow_add]
    exact low
  · rw [Nat.div_lt_iff_lt_mul (Nat.two_pow_pos _), ← Nat.pow_add]
    rwa [Nat.add_right_comm] at high

theorem significand_bounds {n : Nat} (positive : n ≠ 0) :
    2 ^ 52 ≤ significand n ∧ significand n ≤ 2 ^ 53 := by
  obtain ⟨low, high⟩ := mantissa_bounds positive
  have rounded := Mantissa.roundedMantissa_bounds
    ((⟨n <<< (52 - n.log2), false, false⟩ : ExtendedMantissa) >>> (n.log2 - 52))
  rw [Mantissa.mantissa_shiftRight] at rounded
  exact ⟨Nat.le_trans low rounded.1, Nat.le_trans rounded.2 high⟩

theorem significand_mono {m n : Nat} (le : m ≤ n) (same : m.log2 = n.log2) :
    significand m ≤ significand n := by
  unfold significand
  rw [same]
  refine Mantissa.roundedMantissa_mono (Mantissa.residue_shiftRight_mono ?_ _)
  have shifted := Nat.mul_le_mul_right (2 ^ (52 - n.log2)) le
  simp only [Mantissa.residue, Nat.shiftLeft_eq]
  omega

/-- A mantissa keeps its exponent unless it has outgrown 53 bits. -/
theorem targetExponent_of_log2 {m : Nat} {e : Int} (bits : 52 ≤ m.log2) (least : -1074 ≤ e) :
    Format.binary64.targetExponent (totalExponent m e) = e + (m.log2 - 52 : Nat) := by
  have bound : Format.binary64.minExponent = -1074 := by decide
  have width : Format.binary64.mantissaBits = 53 := by decide
  rw [Format.targetExponent, totalExponent, bound, width]
  omega

theorem round_eq (sign : Sign) (n : Nat) :
    UnpackedFloat.round .binary64 sign n 0 = UnpackedFloat.roundWithAccuracy .binary64 sign
      (n <<< (52 - n.log2)) (-(52 - n.log2 : Nat)) .exact := by
  have target : Format.binary64.targetExponent (totalExponent n 0) = (n.log2 : Int) - 52 := by
    have bound : Format.binary64.minExponent = -1074 := by decide
    have width : Format.binary64.mantissaBits = 53 := by decide
    rw [Format.targetExponent, totalExponent, bound, width]
    omega
  have places : (0 - ((n.log2 : Int) - 52)).toNat = 52 - n.log2 := by omega
  simp only [UnpackedFloat.round, target, UnpackedFloat.decreaseExponent, places]
  rw [Int.zero_sub]

theorem shiftToTargetExponent_eq {m : Nat} {e : Int} (bits : 52 ≤ m.log2) (least : -1074 ≤ e) :
    UnpackedFloat.shiftToTargetExponent .binary64 m e .exact
      = ((⟨m, false, false⟩ : ExtendedMantissa) >>> (m.log2 - 52), e + (m.log2 - 52 : Nat)) := by
  have places : (e + (m.log2 - 52 : Nat) - e).toNat = m.log2 - 52 := by omega
  simp only [UnpackedFloat.shiftToTargetExponent, targetExponent_of_log2 bits least,
    UnpackedFloat.shiftToExponent, ExtendedMantissa.ofMantissaAndAccuracy, places]

/-- Rounding shifts, rounds and shifts again. -/
theorem roundWithAccuracy_eq (sign : Sign) {m : Nat} {e : Int}
    {first second : ExtendedMantissa × Int}
    (shifted : UnpackedFloat.shiftToTargetExponent .binary64 m e .exact = first)
    (again : UnpackedFloat.shiftToTargetExponent .binary64 first.1.roundedMantissa first.2 .exact
      = second) (positive : 0 < second.1.mantissa) :
    UnpackedFloat.roundWithAccuracy .binary64 sign m e .exact
      = .finite sign second.1.mantissa second.2 positive := by
  subst shifted again
  exact dif_neg (Nat.ne_of_gt positive)

/-- A mantissa of 54 bits is halved, and its exponent raised. -/
theorem second_shift {m : Nat} {e : Int} (low : 2 ^ 52 ≤ m) (high : m ≤ 2 ^ 53)
    (least : -1074 ≤ e) :
    ∃ shifted, UnpackedFloat.shiftToTargetExponent .binary64 m e .exact = shifted ∧
      2 ^ 52 ≤ shifted.1.mantissa ∧ shifted.1.mantissa < 2 ^ 53 ∧
      e ≤ shifted.2 ∧ shifted.2 ≤ e + 1 ∧
      shifted.2 * 2 ^ 52 + shifted.1.mantissa = e * 2 ^ 52 + m := by
  refine ⟨_, rfl, ?_⟩
  rcases Nat.lt_or_eq_of_le high with fits | rfl
  · have bits : m.log2 = 52 := log2_eq low fits
    rw [shiftToTargetExponent_eq (by omega) least, bits]
    simp only [Mantissa.mantissa_shiftRight]
    omega
  · have bits : (2 ^ 53 : Nat).log2 = 53 := Nat.log2_two_pow
    rw [shiftToTargetExponent_eq (by omega) least, bits]
    simp only [Mantissa.mantissa_shiftRight]
    omega

/-- The parts of a whole number as a double. -/
theorem round_whole (sign : Sign) {n : Nat} (positive : n ≠ 0) :
    ∃ (m : Nat) (e : Int) (h : 0 < m), UnpackedFloat.round .binary64 sign n 0 = .finite sign m e h ∧
      2 ^ 52 ≤ m ∧ m < 2 ^ 53 ∧ -52 ≤ e ∧ e ≤ n.log2 - 51 ∧
      e * 2 ^ 52 + m = (n.log2 - 52 : Int) * 2 ^ 52 + significand n := by
  have bits := log2_shiftLeft positive (52 - n.log2)
  have wide : 52 ≤ (n <<< (52 - n.log2)).log2 := by omega
  have places : (n <<< (52 - n.log2)).log2 - 52 = n.log2 - 52 := by omega
  have exponent : -(52 - n.log2 : Nat) + ((n.log2 - 52 : Nat) : Int) = n.log2 - 52 := by omega
  have first := shiftToTargetExponent_eq (e := -(52 - n.log2 : Nat)) wide (by omega)
  rw [places, exponent] at first
  obtain ⟨low, high⟩ := significand_bounds positive
  obtain ⟨second, again, low', high', least, most, value⟩ :=
    second_shift (e := n.log2 - 52) low high (by omega)
  rw [round_eq]
  refine ⟨_, _, _, roundWithAccuracy_eq sign first again (by omega), low', high', ?_⟩
  omega

/-! ### Bits -/

theorem toNat_packComponents (sign : Sign) (e : BitVec 11) (m : BitVec 52) :
    (UnpackedFloat.packComponents .binary64 sign e m).toNat
      = (sign.toBitVec.toNat * 2 ^ 11 + e.toNat) * 2 ^ 52 + m.toNat := by
  rw [UnpackedFloat.packComponents, BitVec.toNat_append, BitVec.toNat_append,
    ← Nat.shiftLeft_add_eq_or_of_lt m.isLt, ← Nat.shiftLeft_add_eq_or_of_lt e.isLt,
    Nat.shiftLeft_eq, Nat.shiftLeft_eq]

theorem toNat_pack (sign : Sign) {m : Nat} {e : Int} (positive : 0 < m) (low : 2 ^ 52 ≤ m)
    (high : m < 2 ^ 53) (least : -1074 ≤ e) (most : e ≤ 971) :
    ((UnpackedFloat.pack .binary64 (.finite sign m e positive)).toNat : Int)
      = sign.toBitVec.toNat * 2 ^ 63 + (e + 1074) * 2 ^ 52 + m := by
  have bits : m.log2 = 52 := log2_eq low high
  have bias : Format.binary64.exponentBias = 1023 := by decide
  have width : Format.binary64.mantissaBits = 53 := by decide
  have finite : ¬ 2 ^ 11 ≤ (e + (1023 : Nat) + (52 : Nat)).toNat + 1 := by omega
  simp only [UnpackedFloat.pack, bits, bias, width]
  rw [if_neg finite, if_pos trivial, toNat_packComponents, BitVec.toNat_ofNat, BitVec.toNat_ofNat]
  omega

theorem totalKey_ofModel (u : UnpackedFloat) (negative : Bool) {key : Nat}
    (bits : (UnpackedFloat.pack .binary64 u).toNat = (if negative then signBit else 0) + key)
    (lt : key < signBit) :
    totalKey (.ofModel (.pack u)) = if negative then -(key : Int) - 1 else key := by
  have same : (Float.ofModel (.pack u)).toBits.toNat = (UnpackedFloat.pack .binary64 u).toNat := rfl
  unfold totalKey
  rw [same, bits]
  cases negative with
  | false =>
    simp only [Bool.false_eq_true, ↓reduceIte, Nat.zero_add]
    rw [if_neg (by omega)]
  | true =>
    simp only [↓reduceIte]
    rw [if_pos (by omega), Nat.add_sub_cancel_left]

/-- The place of a whole number among the bit patterns of doubles. -/
def wholeKey (n : Nat) : Nat :=
  if n = 0 then 0 else (n.log2 + 1022) * 2 ^ 52 + significand n

theorem wholeKey_mono {m n : Nat} (le : m ≤ n) : wholeKey m ≤ wholeKey n := by
  unfold wholeKey
  by_cases zero : m = 0
  · rw [if_pos zero]
    exact Nat.zero_le _
  have positive : n ≠ 0 := by omega
  rw [if_neg zero, if_neg positive]
  have bound := significand_bounds zero
  have bound' := significand_bounds positive
  have bits : m.log2 ≤ n.log2 :=
    (Nat.le_log2 positive).mpr (Nat.le_trans (Nat.log2_self_le zero) le)
  rcases Nat.lt_or_eq_of_le bits with lt | same
  · omega
  · have significands := significand_mono le same
    omega

/-- A whole number of 53 bits is not rounded. -/
theorem significand_of_log2_le {n : Nat} (bits : n.log2 ≤ 52) :
    significand n = n * 2 ^ (52 - n.log2) := by
  have whole : n.log2 - 52 = 0 := by omega
  rw [significand, whole, Mantissa.shiftRight_zero, Mantissa.roundedMantissa_eq, Mantissa.residue]
  simp only [Bool.toNat_false, Nat.shiftLeft_eq]
  omega

/-- Up to 53 bits no two whole numbers have one place. -/
theorem wholeKey_lt {m n : Nat} (lt : m < n) (small : n ≤ 2 ^ 53) : wholeKey m < wholeKey n := by
  have positive : n ≠ 0 := by omega
  have bound := significand_bounds positive
  unfold wholeKey
  rw [if_neg positive]
  by_cases zero : m = 0
  · rw [if_pos zero]
    omega
  have short : m.log2 ≤ 52 :=
    Nat.lt_succ_iff.mp ((Nat.log2_lt zero).mpr (Nat.lt_of_lt_of_le lt small))
  have exact := significand_of_log2_le short
  rw [if_neg zero]
  rcases Nat.lt_or_ge m.log2 n.log2 with fewer | same
  · -- one digit more outweighs any mantissa
    have fits : m * 2 ^ (52 - m.log2) < 2 ^ (m.log2 + 1) * 2 ^ (52 - m.log2) :=
      Nat.mul_lt_mul_of_pos_right Nat.lt_log2_self (Nat.two_pow_pos _)
    have width : m.log2 + 1 + (52 - m.log2) = 53 := by omega
    rw [← Nat.pow_add, width, ← exact] at fits
    omega
  · have bits : m.log2 = n.log2 :=
      Nat.le_antisymm ((Nat.le_log2 positive).mpr
        (Nat.le_trans (Nat.log2_self_le zero) (Nat.le_of_lt lt))) same
    have exact' := significand_of_log2_le (bits ▸ short)
    have less : m * 2 ^ (52 - n.log2) < n * 2 ^ (52 - n.log2) :=
      Nat.mul_lt_mul_of_pos_right lt (Nat.two_pow_pos _)
    rw [exact, exact', bits]
    omega

theorem toNat_pack_whole (sign : Sign) {n : Nat} (positive : n ≠ 0) (lt : n < 2 ^ 64) :
    (UnpackedFloat.pack .binary64 (UnpackedFloat.round .binary64 sign n 0)).toNat
      = sign.toBitVec.toNat * 2 ^ 63 + wholeKey n ∧ wholeKey n < 2 ^ 63 := by
  obtain ⟨m, e, h, parts, low, high, least, most, value⟩ := round_whole sign positive
  have bits : n.log2 < 64 := (Nat.log2_lt positive).mpr lt
  have packed := toNat_pack sign (e := e) h low high (by omega) (by omega)
  rw [parts, wholeKey, if_neg positive]
  omega

theorem totalKey_ofInt64 (n : Int64) : totalKey (ofInt64 n)
    = if n.toInt < 0 then -(wholeKey n.toInt.natAbs : Int) - 1 else wholeKey n.toInt.natAbs := by
  have range := n.toInt_lt
  have range' := n.le_toInt
  have parts : ofInt64 n
      = .ofModel (.pack (UnpackedFloat.normalize .binary64 n.toInt 0 .positive)) := rfl
  rw [parts, UnpackedFloat.normalize]
  rcases Int.lt_trichotomy n.toInt 0 with negative | zero | positive
  · have magnitude : (-n.toInt).toNat = n.toInt.natAbs := by omega
    obtain ⟨bits, lt⟩ := toNat_pack_whole .negative (n := n.toInt.natAbs) (by omega) (by omega)
    rw [Int.compare_eq_lt.mpr negative, if_pos negative]
    simp only [magnitude]
    rw [totalKey_ofModel _ true bits lt]
    rfl
  · rw [zero]
    decide
  · have magnitude : n.toInt.toNat = n.toInt.natAbs := by omega
    obtain ⟨bits, lt⟩ := toNat_pack_whole .positive (n := n.toInt.natAbs) (by omega) (by omega)
    rw [Int.compare_eq_gt.mpr positive, if_neg (by omega)]
    simp only [magnitude]
    rw [totalKey_ofModel _ false bits lt]
    rfl

/-- Rounding to doubles keeps the order of integers. -/
theorem totalKey_ofInt64_mono {a b : Int64} (le : a.toInt ≤ b.toInt) :
    totalKey (ofInt64 a) ≤ totalKey (ofInt64 b) := by
  rw [totalKey_ofInt64, totalKey_ofInt64]
  by_cases first : a.toInt < 0
  · rw [if_pos first]
    by_cases second : b.toInt < 0
    · have magnitudes : wholeKey b.toInt.natAbs ≤ wholeKey a.toInt.natAbs :=
        wholeKey_mono (by omega)
      rw [if_pos second]
      omega
    · rw [if_neg second]
      omega
  · have magnitudes : wholeKey a.toInt.natAbs ≤ wholeKey b.toInt.natAbs :=
      wholeKey_mono (by omega)
    rw [if_neg first, if_neg (by omega)]
    omega

/-- Rounding keeps integers of 53 bits apart. -/
theorem totalKey_ofInt64_lt {a b : Int64} (lt : a.toInt < b.toInt)
    (first : a.toInt.natAbs ≤ 2 ^ 53) (second : b.toInt.natAbs ≤ 2 ^ 53) :
    totalKey (ofInt64 a) < totalKey (ofInt64 b) := by
  rw [totalKey_ofInt64, totalKey_ofInt64]
  by_cases negative : a.toInt < 0
  · rw [if_pos negative]
    by_cases both : b.toInt < 0
    · have magnitudes : wholeKey b.toInt.natAbs < wholeKey a.toInt.natAbs :=
        wholeKey_lt (by omega) first
      rw [if_pos both]
      omega
    · rw [if_neg both]
      omega
  · have magnitudes : wholeKey a.toInt.natAbs < wholeKey b.toInt.natAbs :=
      wholeKey_lt (by omega) second
    rw [if_neg negative, if_neg (by omega)]
    omega

/-- A double is known by its place in the total order. -/
theorem totalKey_inj {x y : Float} : totalKey x = totalKey y ↔ x = y := by
  refine ⟨fun same => ?_, fun same => same ▸ rfl⟩
  have bits : x.toBits.toNat = y.toBits.toNat := by
    unfold totalKey signBit at same
    dsimp only at same
    split at same <;> split at same <;> omega
  obtain ⟨⟨bx, vx⟩⟩ := x
  obtain ⟨⟨b, v⟩⟩ := y
  have same : bx = b := UInt64.toNat_inj.mp bits
  subst same
  rfl

/-- Integers of 53 bits are known by their doubles. -/
theorem ofInt64_inj {a b : Int64} (first : a.toInt.natAbs ≤ 2 ^ 53)
    (second : b.toInt.natAbs ≤ 2 ^ 53) : ofInt64 a = ofInt64 b ↔ a = b := by
  refine ⟨fun same => Int64.toInt_inj.mp ?_, fun same => same ▸ rfl⟩
  have keys := congrArg totalKey same
  rcases Int.lt_trichotomy a.toInt b.toInt with lt | eq | gt
  · have apart := totalKey_ofInt64_lt lt first second
    omega
  · exact eq
  · have apart := totalKey_ofInt64_lt gt second first
    omega

end PacketQuery.Number
