import PacketQuery.Value.Order
/-!
Which values equality decides about. Null decides nothing and `*` equals everything else; a range
needs a value that both of its bounds are ordered with; a number needs something that reads as a
number; and two values of which neither is a number are always equal or different.
-/

namespace PacketQuery.Value

/-- The value is an integer, or becomes one: a finite float, or one to eight bytes. -/
def hasInteger : Value → Bool
  | bool _ | int _ => true
  | float x => (Number.finite? x).isSome
  | bytes bs => decide (1 ≤ bs.length ∧ bs.length ≤ 8)
  | _ => false

/-- The value is a number, or one to eight bytes. -/
def readsAsNumber : Value → Bool
  | bytes bs => decide (1 ≤ bs.length ∧ bs.length ≤ 8)
  | v => v.isNumeric

/-- Two values that are equal or different in the language. -/
def Comparable : Value → Value → Prop
  | null, _ | _, null => False
  | any, _ | _, any => True
  | range low high, v | v, range low high =>
    (v.compare? low).isSome = true ∧ (v.compare? high).isSome = true
  | a, b => a.isNumeric = true ∨ b.isNumeric = true →
    a.readsAsNumber = true ∧ b.readsAsNumber = true

theorem isSome_int? (v : Value) : v.int?.isSome = v.hasInteger := by
  cases v with
  | bytes bs => by_cases fits : 1 ≤ bs.length ∧ bs.length ≤ 8 <;> simp [int?, hasInteger, fits]
  | float x => simp [int?, hasInteger]
  | _ => rfl

theorem isSome_float? (v : Value) : v.float?.isSome = v.readsAsNumber := by
  cases v with
  | bytes bs => by_cases fits : 1 ≤ bs.length ∧ bs.length ≤ 8 <;>
      simp [float?, int?, readsAsNumber, fits]
  | _ => rfl

theorem isSome_int?_of_not_float {v : Value} (other : v.isFloat = false) :
    v.int?.isSome = v.readsAsNumber := by
  cases v with
  | float x => cases other
  | bytes bs => by_cases fits : 1 ≤ bs.length ∧ bs.length ≤ 8 <;>
      simp [int?, readsAsNumber, fits]
  | _ => rfl

theorem isSome_within? (v low high : Value) : (v.within? low high).isSome = true ↔
    (v.compare? low).isSome = true ∧ (v.compare? high).isSome = true := by
  cases fromLow : v.compare? low <;> cases fromHigh : v.compare? high <;>
    simp [within?, fromLow, fromHigh]

/-- As numbers two values are compared where both read as numbers. -/
theorem isSome_equalNumbers? (a b : Value) : (equalNumbers? a b).isSome = true ↔
    a.readsAsNumber = true ∧ b.readsAsNumber = true := by
  unfold equalNumbers?
  split
  next =>
    rw [← isSome_float? a, ← isSome_float? b]
    cases a.float? <;> cases b.float? <;> simp
  next whole =>
    simp only [Bool.or_eq_true, not_or, Bool.not_eq_true] at whole
    rw [← isSome_int?_of_not_float whole.1, ← isSome_int?_of_not_float whole.2]
    cases a.int? <;> cases b.int? <;> simp

theorem isSome_equal?_iff (a b : Value) : (a.equal? b).isSome = true ↔ a.Comparable b := by
  cases a <;> cases b <;>
    simp [equal?, Comparable, isSome_within?, isNumeric, isSome_equalNumbers?]

end PacketQuery.Value
