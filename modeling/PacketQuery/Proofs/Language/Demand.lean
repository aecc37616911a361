import PacketQuery.Proofs.Catalog.EntryMask
import PacketQuery.Proofs.Language.Comparing
/-!
What a packet must carry for an expression to have a value, and for a filter to accept it. A
missing layer makes its fields null, null passes through arithmetic, and a comparison with null
does not hold; but one side of a disjunction, or a negation, asks for nothing.
-/

namespace PacketQuery.Language

open Catalog (position? position?_frame isProtocolName_iff_position? hasLayer_iff
  carries_of_layer?)

/-- The operator computes a number, null where an operand is. -/
def BinaryOp.isArithmetic : BinaryOp → Bool
  | add | sub | mul | bitAnd | bitOr | bitXor | shiftLeft | shiftRight => true
  | _ => false

namespace Expr

/-- Without the bit the expression is null. -/
def Needs (i : Nat) : Expr → Prop
  | .field name => ∃ layer field, Text.cut '.' name = some (layer, field) ∧ position? layer = some i
  | .subscript base _ _ => position? base = some i
  | .group inner => Needs i inner
  | .unary _ operand => Needs i operand
  | .binary op left right => op.isArithmetic = true ∧ (Needs i left ∨ Needs i right)
  | _ => False

/-- Without the bit the equality with the right side, or its negation, does not hold. -/
def EqualityNeeds (i : Nat) (left right : Expr) : Prop :=
  match right.ungrouped with
  | .protocol _ | .wildcard => False
  | _ => left.Needs i ∨ right.Needs i

/-- Without the bit the expression does not hold. -/
def Demands (i : Nat) : Expr → Prop
  | .protocol name => position? name = some i
  | .group inner => Demands i inner
  | .unary .plus operand => Demands i operand
  | .unary _ operand => Needs i operand
  | .binary op left right =>
    match op with
    | .and => Demands i left ∨ Demands i right
    | .or => Demands i left ∧ Demands i right
    | .equal | .notEqual => EqualityNeeds i left right
    | .member | .between => Needs i left
    | .range => False
    | _ => Needs i left ∨ Needs i right
  | e => Needs i e

end Expr

variable {p : Packet} {now : Int64} {i : Nat}

theorem position?_payload {word : String} (h : Text.same "payload" word = true) :
    position? word = none := by
  rw [← Catalog.position?_congr h]
  decide

/-- A field that the packet has lies in a layer that it has. -/
theorem carries_of_field? {name layer field : String} {value : FieldValue}
    (parts : Text.cut '.' name = some (layer, field)) (bit : position? layer = some i)
    (h : p.field? name = some value) : p.Carries i := by
  simp only [Packet.field?, parts] at h
  split at h
  next frame =>
    rw [position?_frame frame] at bit
    cases bit
  next =>
    obtain ⟨found, first, _⟩ := Option.bind_eq_some_iff.mp h
    exact carries_of_layer? (by rw [first]; rfl) bit

theorem carries_of_bytes? {base : String} {offset length : Nat} {bytes : Bytes}
    (bit : position? base = some i) (h : p.bytes? base offset length = some bytes) :
    p.Carries i := by
  obtain ⟨start, h, _⟩ := Option.bind_eq_some_iff.mp h
  unfold Packet.baseStart? at h
  split at h
  next frame =>
    rw [position?_frame frame] at bit
    cases bit
  next =>
    split at h
    next payload =>
      rw [position?_payload payload] at bit
      cases bit
    next =>
      obtain ⟨found, first, _⟩ := Option.map_eq_some_iff.mp h
      exact carries_of_layer? (by rw [first]; rfl) bit

/-! ### Null values -/

theorem isNull_of_unary {op : UnaryOp} {v : Value} (h : v.isNull = true) :
    (op.apply v).isNull = true := by
  cases v <;> simp [Value.isNull] at h
  cases op <;> rfl

theorem isNull_of_arithmetic {op : BinaryOp} (arithmetic : op.isArithmetic = true) {a b : Value}
    (h : a.isNull = true ∨ b.isNull = true) : (op.apply a b).isNull = true := by
  have passed : op.apply a b = op.arithmetic a b := by
    cases op <;> simp [BinaryOp.isArithmetic] at arithmetic <;> rfl
  rw [passed, BinaryOp.arithmetic, if_pos (Bool.or_eq_true_iff.mpr h)]
  rfl

theorem evaluate_arithmetic {op : BinaryOp} (arithmetic : op.isArithmetic = true)
    (left right : Expr) : evaluate p now (.binary op left right)
      = op.apply (evaluate p now left) (evaluate p now right) := by
  cases op <;> simp [BinaryOp.isArithmetic] at arithmetic <;> rfl

/-- An expression is null unless the packet carries what it needs. -/
theorem isNull_of_needs {e : Expr} (needs : e.Needs i) (without : ¬ p.Carries i) :
    (evaluate p now e).isNull = true := by
  induction e using Expr.Needs.induct with
  | case1 name =>
    obtain ⟨layer, field, parts, bit⟩ := needs
    cases found : p.field? name with
    | none => simp [evaluate, found, Value.isNull]
    | some value => exact absurd (carries_of_field? parts bit found) without
  | case2 base offset length =>
    cases found : p.bytes? base offset length with
    | none => simp [evaluate, found, Value.isNull]
    | some bytes => exact absurd (carries_of_bytes? needs found) without
  | case3 inner ih => exact ih needs
  | case4 op operand ih => exact isNull_of_unary (ih needs)
  | case5 op left right ihLeft ihRight =>
    obtain ⟨arithmetic, sides⟩ := needs
    rw [evaluate_arithmetic arithmetic]
    exact isNull_of_arithmetic arithmetic (sides.imp ihLeft ihRight)
  | case6 => exact absurd needs (by simp_all [Expr.Needs])

/-! ### What does not hold -/

@[simp] theorem isTruthy_bool (b : Bool) : (Value.bool b).isTruthy = b :=
  rfl

theorem not_isTruthy_of_isNull {v : Value} (h : v.isNull = true) : v.isTruthy = false := by
  cases v <;> simp_all [Value.isNull, Value.isTruthy]

theorem compare?_of_isNull {a b : Value} (h : a.isNull = true ∨ b.isNull = true) :
    a.compare? b = none := by
  cases a <;> cases b <;> simp_all [Value.isNull, Value.compare?]

theorem equal?_of_isNull {a b : Value} (h : a.isNull = true ∨ b.isNull = true) :
    a.equal? b = none := by
  cases a <;> cases b <;> simp_all [Value.isNull, Value.equal?]

theorem int?_of_isNull {v : Value} (h : v.isNull = true) : v.int? = none := by
  cases v <;> simp_all [Value.isNull, Value.int?]

theorem within?_of_isNull {v low high : Value} (h : v.isNull = true) :
    v.within? low high = none := by
  simp [Value.within?, compare?_of_isNull (.inl h)]

/-- Neither a comparison nor arithmetic with null holds. -/
theorem not_isTruthy_of_apply {op : BinaryOp} {a b : Value}
    (h : a.isNull = true ∨ b.isNull = true) : (op.apply a b).isTruthy = false := by
  unfold BinaryOp.apply
  split
  next test _ => simp [compare?_of_isNull h]
  next =>
    rw [BinaryOp.arithmetic, if_pos (Bool.or_eq_true_iff.mpr h)]
    rfl

theorem containment_of_isNull {left : Value} (h : left.isNull = true) (right : Expr)
    (rightValue : Value) : containment left right rightValue = none := by
  unfold containment
  split
  next => simp [int?_of_isNull h]
  next =>
    split
    next => exact within?_of_isNull h
    next => exact equal?_of_isNull (.inl h)

/-- Null is contained in nothing, not even in a list with `*`. -/
theorem contained?_of_isNull {left : Value} (h : left.isNull = true) (right : Expr) :
    contained? p now left right = none := by
  unfold contained?
  cases members? p now right with
  | none => exact containment_of_isNull h right _
  | some members => exact if_pos h

/-- A null value is no member of anything. -/
theorem member_of_isNull {op : BinaryOp} (membership : op.isMembership = true) {left : Expr}
    (h : (evaluate p now left).isNull = true) (right : Expr) :
    evaluate p now (.binary op left right) = .bool false := by
  rw [evaluate_membership membership, contained?_of_isNull h, Option.getD_none]

theorem needs_ungrouped (e : Expr) : e.ungrouped.Needs i ↔ e.Needs i := by
  induction e using Expr.ungrouped.induct with
  | case1 inner ih => exact ih
  | case2 e plain => rw [Expr.ungrouped.eq_2 e plain]

/-- Without what its sides need an equality is undecided. -/
theorem equality_of_needs {left right : Expr} (needs : Expr.EqualityNeeds i left right)
    (without : ¬ p.Carries i) :
    equality p (evaluate p now left) right (evaluate p now right) = none := by
  have inside := needs_ungrouped (i := i) right
  unfold Expr.EqualityNeeds at needs
  unfold equality
  split
  next name protocol => simp [protocol] at needs
  next wildcard => simp [wildcard] at needs
  next network ipv4 =>
    rw [ipv4] at needs inside
    have null : (evaluate p now left).isNull = true :=
      isNull_of_needs (needs.resolve_right fun r => inside.mpr r) without
    simp [int?_of_isNull null]
  next address mac =>
    rw [mac] at needs inside
    have null : (evaluate p now left).isNull = true :=
      isNull_of_needs (needs.resolve_right fun r => inside.mpr r) without
    simp [int?_of_isNull null]
  next protocol wildcard _ _ =>
    split at needs
    next name same => exact absurd same (protocol name)
    next same => exact absurd same wildcard
    next =>
      exact equal?_of_isNull (needs.imp (isNull_of_needs · without) (isNull_of_needs · without))

/-- A filter of two sides does not hold unless the packet carries what it demands, if neither
side does. -/
theorem not_isTruthy_binary {op : BinaryOp} {left right : Expr}
    (demands : (Expr.binary op left right).Demands i) (without : ¬ p.Carries i)
    (first : left.Demands i → (evaluate p now left).isTruthy = false)
    (second : right.Demands i → (evaluate p now right).isTruthy = false) :
    (evaluate p now (.binary op left right)).isTruthy = false := by
  cases op
  case and =>
    rcases demands with one | other
    · simp [evaluate, first one]
    · simp [evaluate, second other]
  case or => simp [evaluate, first demands.1, second demands.2]
  case equal => simp [evaluate, equality_of_needs demands without]
  case notEqual => simp [evaluate, equality_of_needs demands without]
  case member => rw [member_of_isNull rfl (isNull_of_needs demands without), isTruthy_bool]
  case between => rw [member_of_isNull rfl (isNull_of_needs demands without), isTruthy_bool]
  case range => exact absurd demands id
  -- What is left compares or computes, and a null side spoils both.
  all_goals
    have sides : (evaluate p now left).isNull = true ∨ (evaluate p now right).isNull = true :=
      demands.imp (isNull_of_needs · without) (isNull_of_needs · without)
    simpa only [evaluate] using not_isTruthy_of_apply sides

/-- A filter does not hold unless the packet carries what it demands. -/
theorem not_accepts_of_demands (without : ¬ p.Carries i) :
    ∀ e : Expr, e.Demands i → accepts p now e = false
  | .protocol name, demands => by
    have known : isProtocolName name = true :=
      isProtocolName_iff_position?.mpr (Option.isSome_iff_exists.mpr ⟨i, demands⟩)
    have missing : p.hasLayer name = false := by
      rw [← Bool.not_eq_true, hasLayer_iff known]
      rintro ⟨j, bit, carries⟩
      cases bit.symm.trans demands
      exact without carries
    simp [accepts, evaluate, missing]
  | .group inner, demands => not_accepts_of_demands without inner demands
  | .unary .plus operand, demands => not_accepts_of_demands without operand demands
  | .unary .negate _, demands | .unary .not _, demands =>
    not_isTruthy_of_isNull (isNull_of_unary (isNull_of_needs demands without))
  | .binary _ left right, demands =>
    not_isTruthy_binary demands without (not_accepts_of_demands without left)
      (not_accepts_of_demands without right)
  | .field _, demands | .subscript .., demands =>
    not_isTruthy_of_isNull (isNull_of_needs demands without)
  | .integer _, demands | .float _, demands | .boolean _, demands | .string _, demands
  | .moment _, demands | .now .., demands | .ipv4 _, demands | .mac _, demands
  | .bytes _, demands | .wildcard, demands | .sequence _, demands => absurd demands id

end PacketQuery.Language
