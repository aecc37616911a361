import PacketQuery.Proofs.Number.Comparison
import PacketQuery.Proofs.Language.Unknown
import PacketQuery.Proofs.Order
import PacketQuery.Value.Order
/-!
Equality and order of the language agree. Both coerce numbers alike, so that among values that
stand for one thing those are equal that the order calls equal; and whichever of two values comes
first, equality says the same and the order says the reverse.
-/

namespace PacketQuery.Value

/-- The value stands for one thing: it is no range and not `*`. -/
def isSingle : Value → Bool
  | range .. | any => false
  | _ => true

theorem compareNumbers?_swap (a b : Value) :
    compareNumbers? b a = (compareNumbers? a b).map Ordering.swap := by
  unfold compareNumbers?
  rw [Bool.or_comm]
  split
  next =>
    cases a.float? <;> cases b.float? <;> first | rfl | exact Number.order?_swap _ _
  next =>
    cases a.int? <;> cases b.int? <;>
      first | rfl | exact congrArg some (Int.compare_swap _ _).symm

theorem equalNumbers?_comm (a b : Value) : equalNumbers? a b = equalNumbers? b a := by
  unfold equalNumbers?
  rw [Bool.or_comm]
  split
  next =>
    cases a.float? <;> cases b.float? <;>
      first | rfl | exact congrArg some (Number.beq_comm _ _)
  next =>
    cases a.int? <;> cases b.int? <;> first | rfl | exact congrArg some BEq.comm

/-- Numbers are equal where their order says so. -/
theorem equalNumbers?_iff (a b : Value) :
    equalNumbers? a b = some true ↔ compareNumbers? a b = some .eq := by
  unfold equalNumbers? compareNumbers?
  split
  next =>
    cases a.float? <;> cases b.float? <;> simp [Number.beq_iff_order?]
  next =>
    cases a.int? <;> cases b.int? <;> simp [Int64.toInt_inj]

theorem compare?_swap (a b : Value) : b.compare? a = (a.compare? b).map Ordering.swap := by
  cases a with
  | null => cases b <;> rfl
  | text s =>
    cases b with
    | null => rfl
    | text t => exact congrArg some (Order.text_swap s t)
    | _ => exact compareNumbers?_swap _ _
  | bytes bs =>
    cases b with
    | null => rfl
    | bytes cs => exact congrArg some (Order.bytes_swap bs cs)
    | _ => exact compareNumbers?_swap _ _
  | _ =>
    cases b with
    | null => rfl
    | _ => exact compareNumbers?_swap _ _

theorem equal?_of_isNumeric {a b : Value} (first : a.isSingle = true) (second : b.isSingle = true)
    (number : a.isNumeric = true ∨ b.isNumeric = true) : a.equal? b = equalNumbers? a b := by
  cases a <;> cases b <;> simp_all [equal?, isNumeric, isSingle] <;> rfl

theorem compare?_of_isNumeric {a b : Value} (number : a.isNumeric = true ∨ b.isNumeric = true) :
    a.compare? b = compareNumbers? a b := by
  cases a <;> cases b <;> simp_all [compare?, isNumeric] <;> rfl

theorem equal?_comm (a b : Value) : a.equal? b = b.equal? a := by
  cases a <;> cases b <;>
    simp [equal?, isNumeric, equalNumbers?_comm, within?_range, eq_comm, Bool.beq_eq_decide_eq]

/-- A text is equal to texts alone, and ordered with texts alone. -/
theorem equal?_iff_compare? {a b : Value} (first : a.isSingle = true) (second : b.isSingle = true) :
    a.equal? b = some true ↔ a.compare? b = some .eq := by
  by_cases number : a.isNumeric = true ∨ b.isNumeric = true
  · rw [equal?_of_isNumeric first second number, compare?_of_isNumeric number, equalNumbers?_iff]
  · cases a <;> cases b <;> simp_all [isSingle, isNumeric, equal?, compare?, compareNumbers?, int?,
      isFloat, Order.text_eq_eq, Order.bytes_eq_eq]

theorem within?_iff (v low high : Value) : v.within? low high = some true ↔
    ∃ o o', v.compare? low = some o ∧ v.compare? high = some o' ∧ o ≠ .lt ∧ o' ≠ .gt := by
  cases fromLow : v.compare? low <;> cases fromHigh : v.compare? high <;>
    simp [within?, fromLow, fromHigh]

end PacketQuery.Value
