import PacketQuery.Number.Double
/-!
The comparison of doubles that leaves NaN out: two doubles change sides together with their order,
and equal doubles are those that the order calls equal.
-/

namespace PacketQuery.Number

open Float.Model (UnpackedFloat)

theorem compare_sign_swap (s t : UnpackedFloat.Sign) : compare t s = (compare s t).swap := by
  cases s <;> cases t <;> rfl

theorem unpacked_compare_swap (x y : UnpackedFloat) :
    y.compare x = (x.compare y).map Ordering.swap := by
  cases x with
  | notANumber => cases y <;> rfl
  | infinity s =>
    cases y with
    | infinity t => exact congrArg some (compare_sign_swap s t)
    | _ => cases s <;> rfl
  | zero s =>
    cases y with
    | infinity t => cases t <;> rfl
    | finite t m e positive => cases t <;> rfl
    | _ => rfl
  | finite s m e positive =>
    cases y with
    | infinity t => cases t <;> rfl
    | finite t n f positive' =>
      have magnitudes : (compare f e).then (compare n m)
          = ((compare e f).then (compare m n)).swap := by
        rw [Ordering.swap_then, Int.compare_swap, Nat.compare_swap]
      cases s with
      | positive =>
        cases t with
        | positive => exact congrArg some magnitudes
        | negative => rfl
      | negative =>
        cases t with
        | positive => rfl
        | negative => exact congrArg (fun o => some o.swap) magnitudes
    | _ => cases s <;> rfl

/-- The comparison of two doubles by sign, exponent and mantissa, which the operators on doubles
ask for their answers. -/
def compareParts (x y : Float) : Option Ordering :=
  x.toModel.unpack.compare y.toModel.unpack

theorem lt_iff_compareParts (x y : Float) : x < y ↔ compareParts x y = some .lt := by
  have asked : x < y ↔ decide ((compareParts x y == some .lt) = true) = true := Iff.rfl
  rw [asked, decide_eq_true_iff, beq_iff_eq]

theorem beq_iff_compareParts (x y : Float) : (x == y) = true ↔ compareParts x y = some .eq := by
  have asked : (x == y) = true ↔ (compareParts x y == some .eq) = true := Iff.rfl
  rw [asked, beq_iff_eq]

theorem compareParts_swap (x y : Float) :
    compareParts y x = (compareParts x y).map Ordering.swap :=
  unpacked_compare_swap _ _

theorem order?_eq_compareParts (x y : Float) : order? x y = compareParts x y := by
  unfold order?
  simp only [lt_iff_compareParts, beq_iff_compareParts, compareParts_swap x y]
  cases compareParts x y with
  | none => rfl
  | some o => cases o <;> rfl

theorem order?_swap (x y : Float) : order? y x = (order? x y).map Ordering.swap := by
  rw [order?_eq_compareParts, order?_eq_compareParts, compareParts_swap x y]

theorem beq_iff_order? (x y : Float) : (x == y) = true ↔ order? x y = some .eq := by
  rw [order?_eq_compareParts, beq_iff_compareParts]

theorem beq_comm (x y : Float) : (x == y) = (y == x) := by
  rw [Bool.eq_iff_iff, beq_iff_order?, beq_iff_order?, order?_swap x y]
  cases order? x y with
  | none => simp
  | some o => cases o <;> simp

end PacketQuery.Number
