import PacketQuery.Catalog.Mask
import PacketQuery.Proofs.Text.Case
/-!
A mask as the set of its bits: what inserting, containment and inclusion say bit by bit.
-/

namespace PacketQuery.Catalog

def Mask.hasBit (mask : Mask) (i : Nat) : Bool :=
  mask.bits.toNat.testBit i

theorem canonical_congr {a b : String} (h : Text.same a b = true) :
    Text.same (canonical a) (canonical b) = true := by
  have found : (otherNames.find? fun entry => Text.same entry.1 a)
      = otherNames.find? fun entry => Text.same entry.1 b := by
    simp only [Text.same_right_congr h]
  unfold canonical
  rw [found]
  cases otherNames.find? fun entry => Text.same entry.1 b with
  | none => exact h
  | some entry => exact Text.same_self _

/-- The position of a word does not depend on its case. -/
theorem position?_congr {a b : String} (h : Text.same a b = true) :
    position? a = position? b := by
  unfold position?
  simp only [Text.same_right_congr (canonical_congr h)]

theorem position?_lt {word : String} {i : Nat} (h : position? word = some i) : i < 64 := by
  have found := (List.findIdx?_eq_some_iff_findIdx_eq.mp h).1
  have size : protocols.length = 30 := rfl
  omega

theorem testBit_bitAt {position : Nat} (h : position < 64) (i : Nat) :
    (Mask.bitAt position).toNat.testBit i = decide (position = i) := by
  have small : 1 <<< position < 2 ^ 64 := by
    rw [Nat.shiftLeft_eq, Nat.one_mul]
    exact Nat.pow_lt_pow_right (by decide) h
  have value : (Mask.bitAt position).toNat = 2 ^ position := by
    rw [Mask.bitAt, UInt64.toNat_ofNat', Nat.mod_eq_of_lt small, Nat.shiftLeft_eq, Nat.one_mul]
  rw [value, Nat.testBit_two_pow]

namespace Mask

@[simp] theorem hasBit_empty (i : Nat) : empty.hasBit i = false := by
  simp [hasBit, empty]

theorem insert_congr {a b : String} (h : Text.same a b = true) (mask : Mask) :
    mask.insert a = mask.insert b := by
  unfold insert bit?
  rw [position?_congr h]

theorem hasBit_insert (mask : Mask) (word : String) (i : Nat) :
    (mask.insert word).hasBit i = (mask.hasBit i || position? word == some i) := by
  unfold insert bit?
  cases h : position? word with
  | none => simp
  | some position => simp [hasBit, testBit_bitAt (position?_lt h), beq_eq_decide]

/-- The bits of a mask with further words. -/
theorem hasBit_foldl_insert (mask : Mask) (words : List String) (i : Nat) :
    (words.foldl insert mask).hasBit i = true ↔
      mask.hasBit i = true ∨ ∃ word ∈ words, position? word = some i := by
  induction words generalizing mask with
  | nil => simp
  | cons word words ih =>
    rw [List.foldl_cons, ih, hasBit_insert]
    simp [or_assoc]

theorem hasBit_ofNames (words : List String) (i : Nat) :
    (ofNames words).hasBit i = true ↔ ∃ word ∈ words, position? word = some i := by
  simp [ofNames, hasBit_foldl_insert]

theorem contains_iff (mask : Mask) (word : String) :
    mask.contains word = true ↔ ∃ i, position? word = some i ∧ mask.hasBit i = true := by
  unfold contains bit?
  cases h : position? word with
  | none => simp
  | some position =>
    have value : (bitAt position).toNat = 2 ^ position := by
      apply Nat.eq_of_testBit_eq
      intro i
      rw [testBit_bitAt (position?_lt h), Nat.testBit_two_pow]
    have masked : (mask.bits &&& bitAt position != 0) = mask.hasBit position := by
      apply Bool.eq_iff_iff.mpr
      rw [bne_iff_ne, ne_eq, ← UInt64.toNat_inj, UInt64.toNat_and, value, Nat.and_two_pow]
      simp [hasBit]
    simp [masked]

/-- A mask includes another where it has each of its bits. -/
theorem includes_iff (mask required : Mask) :
    mask.includes required = true ↔
      ∀ i, required.hasBit i = true → mask.hasBit i = true := by
  rw [includes, beq_iff_eq, ← UInt64.toNat_inj, UInt64.toNat_and]
  constructor
  · intro h i hi
    have both := congrArg (Nat.testBit · i) h
    simp only [Nat.testBit_and, Bool.and_eq_right_iff_imp] at both
    exact both hi
  · intro h
    apply Nat.eq_of_testBit_eq
    intro i
    simp only [Nat.testBit_and, Bool.and_eq_right_iff_imp]
    exact h i

end Mask

end PacketQuery.Catalog
