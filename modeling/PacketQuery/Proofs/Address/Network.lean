import Mathlib
import PacketQuery.Address.Network
/-!
A network holds the addresses that begin with its fixed bits: its lowest and its highest address
have zeros and ones behind them, so the range between the two is that of one quotient by a power of
two.
-/

namespace PacketQuery

/-- The first `count` bits of two addresses are the same. -/
def SharesPrefix (count : Nat) (a b : UInt32) : Prop :=
  ∀ i < count, a.toBitVec.getMsbD i = b.toBitVec.getMsbD i

instance SharesPrefix.decidable (count : Nat) (a b : UInt32) : Decidable (SharesPrefix count a b) :=
  inferInstanceAs (Decidable (∀ i < count, a.toBitVec.getMsbD i = b.toBitVec.getMsbD i))

namespace SharesPrefix

variable {count fewer : Nat} {a b c : UInt32}

theorem symm (h : SharesPrefix count a b) : SharesPrefix count b a :=
  fun i inside => (h i inside).symm

theorem trans (h : SharesPrefix count a b) (h' : SharesPrefix count b c) :
    SharesPrefix count a c :=
  fun i inside => (h i inside).trans (h' i inside)

theorem mono (h : SharesPrefix count a b) (le : fewer ≤ count) : SharesPrefix fewer a b :=
  fun i inside => h i (Nat.lt_of_lt_of_le inside le)

/-- The first bits are those that remain when the others are cut off. -/
theorem iff_div (le : count ≤ 32) : SharesPrefix count a b ↔
    a.toNat / 2 ^ (32 - count) = b.toNat / 2 ^ (32 - count) := by
  have bit : ∀ (x : UInt32) i, i < 32 → x.toBitVec.getMsbD i = x.toNat.testBit (31 - i) := by
    intro x i inside
    rw [BitVec.getMsbD, decide_eq_true inside, Bool.true_and]
    rfl
  constructor
  · intro shares
    refine Nat.eq_of_testBit_eq fun j => ?_
    rw [Nat.testBit_div_two_pow, Nat.testBit_div_two_pow]
    by_cases inside : j + (32 - count) < 32
    · have same := shares (31 - (j + (32 - count))) (by omega)
      rw [bit a _ (by omega), bit b _ (by omega)] at same
      rwa [show 31 - (31 - (j + (32 - count))) = j + (32 - count) by omega] at same
    · have high : 2 ^ 32 ≤ 2 ^ (j + (32 - count)) :=
        Nat.pow_le_pow_right (by decide) (Nat.not_lt.mp inside)
      rw [Nat.testBit_lt_two_pow (Nat.lt_of_lt_of_le a.toNat_lt high),
        Nat.testBit_lt_two_pow (Nat.lt_of_lt_of_le b.toNat_lt high)]
  · intro same i inside
    have shifted := congrArg (Nat.testBit · (31 - i - (32 - count))) same
    simp only [Nat.testBit_div_two_pow] at shifted
    rw [bit a i (by omega), bit b i (by omega)]
    rwa [show 31 - i - (32 - count) + (32 - count) = 31 - i by omega] at shifted

end SharesPrefix

namespace Network

theorem toNat_mask (length : Nat) : (mask length).toNat = 2 ^ 32 - 2 ^ (32 - length) := by
  have some_ : 0 < 2 ^ (32 - length) := Nat.two_pow_pos _
  rw [mask, Nat.one_shiftLeft]
  exact UInt32.toNat_ofNat_of_lt' (Nat.sub_lt (by decide) some_)

/-- The free bits are cleared by a division. -/
theorem and_high_bits {a free : Nat} (small : a < 2 ^ 32) (le : free ≤ 32) :
    a &&& (2 ^ 32 - 2 ^ free) = a / 2 ^ free * 2 ^ free := by
  have high : 2 ^ 32 - 2 ^ free = (2 ^ (32 - free) - 1) * 2 ^ free := by
    rw [Nat.sub_mul, ← Nat.pow_add, Nat.sub_add_cancel le, Nat.one_mul]
  rw [high]
  refine Nat.eq_of_testBit_eq fun j => ?_
  rw [Nat.testBit_and, Nat.testBit_mul_two_pow, Nat.testBit_two_pow_sub_one,
    Nat.testBit_mul_two_pow, Nat.testBit_div_two_pow]
  by_cases fixed : free ≤ j
  · rw [Nat.sub_add_cancel fixed]
    by_cases inside : j < 32
    · simp [fixed, show j - free < 32 - free by omega]
    · have above : a < 2 ^ j :=
        Nat.lt_of_lt_of_le small (Nat.pow_le_pow_right (by decide) (Nat.not_lt.mp inside))
      rw [Nat.testBit_lt_two_pow above, Bool.false_and, Bool.and_false]
  · simp [fixed]

section Range

variable (address : UInt32) (length : Nat)

/-- The number of bits that are not fixed. -/
def freeBits : Nat :=
  32 - min length 32

theorem toNat_lowest : (of address length).lowest.toNat
    = address.toNat / 2 ^ freeBits length * 2 ^ freeBits length := by
  have le : freeBits length ≤ 32 := Nat.sub_le ..
  rw [lowest, of, UInt32.toNat_and, toNat_mask]
  exact and_high_bits address.toNat_lt le

theorem toNat_highest : (of address length).highest.toNat
    = address.toNat / 2 ^ freeBits length * 2 ^ freeBits length + 2 ^ freeBits length - 1 := by
  have some_ : 0 < 2 ^ freeBits length := Nat.two_pow_pos _
  have free : (~~~mask (of address length).length).toNat = 2 ^ freeBits length - 1 := by
    have size : 2 ^ freeBits length ≤ 2 ^ 32 := Nat.pow_le_pow_right (by decide) (Nat.sub_le ..)
    rw [UInt32.toNat_not, toNat_mask]
    change 2 ^ 32 - 1 - (2 ^ 32 - 2 ^ freeBits length) = _
    omega
  have ones := Nat.two_pow_add_eq_or_of_lt (Nat.sub_lt some_ Nat.one_pos)
    (address.toNat / 2 ^ freeBits length)
  rw [highest, UInt32.toNat_or, free]
  change (of address length).lowest.toNat ||| _ = _
  rw [toNat_lowest, Nat.mul_comm, ← ones, Nat.add_sub_assoc some_]

end Range

/-- An address lies in the network exactly if it shares the fixed bits. -/
theorem contains_iff (address x : UInt32) (length : Nat) :
    (of address length).contains x = true ↔ SharesPrefix (min length 32) address x := by
  have range : (of address length).contains x = true ↔
      (of address length).lowest.toNat ≤ x.toNat ∧ x.toNat ≤ (of address length).highest.toNat := by
    rw [contains, Bool.and_eq_true, decide_eq_true_eq, decide_eq_true_eq, UInt32.le_iff_toNat_le,
      UInt32.le_iff_toNat_le]
  rw [range, toNat_lowest, toNat_highest, ← Nat.div_eq_iff (Nat.two_pow_pos _),
    SharesPrefix.iff_div (Nat.min_le_right ..), eq_comm]
  rfl

/-- A network with as many fixed bits or more lies inside or apart. -/
theorem subset_or_disjoint {a b : UInt32} {length longer : Nat} (le : length ≤ longer) :
    (∀ x, (of b longer).contains x = true → (of a length).contains x = true) ∨
      ∀ x, ¬ ((of a length).contains x = true ∧ (of b longer).contains x = true) := by
  simp only [contains_iff]
  have fewer : min length 32 ≤ min longer 32 := by omega
  by_cases shares : SharesPrefix (min length 32) a b
  · exact .inl fun x inside => shares.trans (inside.mono fewer)
  · exact .inr fun x ⟨inside, inside'⟩ => shares (inside.trans (inside'.mono fewer).symm)

/-- Of two networks one contains the other, or they have no address in common. -/
theorem nested_or_disjoint (a b : UInt32) (length length' : Nat) :
    (∀ x, (of a length).contains x = true → (of b length').contains x = true) ∨
      (∀ x, (of b length').contains x = true → (of a length).contains x = true) ∨
      ∀ x, ¬ ((of a length).contains x = true ∧ (of b length').contains x = true) := by
  rcases Nat.le_total length length' with le | le
  · exact .inr (subset_or_disjoint le)
  · rcases @subset_or_disjoint b a _ _ le with inside | apart
    · exact .inl inside
    · exact .inr (.inr fun x both => apart x both.symm)

end Network

end PacketQuery
