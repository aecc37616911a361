import PacketQuery.Frame.Assembly
import PacketQuery.Proofs.Language.Demand
/-!
Unknown values. Arithmetic with a null operand is null, however deep the operand lies. A
comparison with a null side, or with a range that lacks a bound, is false, and its negation too;
only a test for a layer or for `*` looks past its left side, and only a list past its value.
-/

namespace PacketQuery

namespace Value

theorem isNull_iff {v : Value} : v.isNull = true ↔ v = .null := by
  cases v <;> simp [isNull]

theorem isNull_eq_false_iff {v : Value} : v.isNull = false ↔ v ≠ .null := by
  cases v <;> simp [isNull]

/-- A range with a null bound. -/
def LacksBound : Value → Prop
  | range low high => low = null ∨ high = null
  | _ => False

theorem LacksBound.exists {v : Value} (h : v.LacksBound) :
    ∃ low high, v = .range low high ∧ (low = .null ∨ high = .null) := by
  cases v with
  | range low high => exact ⟨low, high, rfl, h⟩
  | _ => exact absurd h id

/-- A range has no place in the order of the language. -/
theorem compare?_of_range {a b low high : Value} (h : a = .range low high ∨ b = .range low high) :
    a.compare? b = none := by
  rcases h with rfl | rfl
  · cases b <;> simp [compare?, compareNumbers?, isFloat, float?, int?]
  · cases a <;> simp [compare?, compareNumbers?, isFloat, float?, int?]

theorem within?_range (a b low high : Value) : (range a b).within? low high = none := by
  simp [within?, compare?_of_range (.inl rfl)]

theorem within?_of_null_bound {v low high : Value} (h : low = .null ∨ high = .null) :
    v.within? low high = none := by
  have unordered : v.compare? low = none ∨ v.compare? high = none :=
    h.imp (fun null => Language.compare?_of_isNull (.inr (isNull_iff.mpr null)))
      (fun null => Language.compare?_of_isNull (.inr (isNull_iff.mpr null)))
  rcases unordered with fromLow | fromHigh
  · simp [within?, fromLow]
  · simp [within?, fromHigh]

/-- Neither the order, nor the equality, nor the containment of two values is decided. -/
structure Undecided (a b : Value) : Prop where
  order : a.compare? b = none
  equal : a.equal? b = none
  within : ∀ low high, b = .range low high → a.within? low high = none
  number : a.int? = none ∨ ∀ n, b ≠ .int n

theorem undecided_of_null_left {b : Value} : Undecided null b where
  order := Language.compare?_of_isNull (.inl rfl)
  equal := Language.equal?_of_isNull (.inl rfl)
  within _ _ _ := Language.within?_of_isNull rfl
  number := .inl rfl

theorem undecided_of_null_right {a : Value} : Undecided a null where
  order := Language.compare?_of_isNull (.inr rfl)
  equal := Language.equal?_of_isNull (.inr rfl)
  within _ _ := nofun
  number := .inr nofun

/-- Nothing but `*` can be compared with a range that lacks a bound. -/
theorem undecided_of_lacksBound_right {a b : Value} (lacks : b.LacksBound) (other : a ≠ .any) :
    Undecided a b := by
  obtain ⟨low, high, rfl, bound⟩ := lacks.exists
  refine ⟨compare?_of_range (.inr rfl), ?_, ?_, .inr nofun⟩
  · cases a <;> simp_all [equal?, within?_of_null_bound, within?_range]
  · rintro low high ⟨⟩
    exact within?_of_null_bound bound

theorem undecided_of_lacksBound_left {a b : Value} (lacks : a.LacksBound) (other : b ≠ .any) :
    Undecided a b := by
  obtain ⟨low, high, rfl, bound⟩ := lacks.exists
  refine ⟨compare?_of_range (.inl rfl), ?_, fun low' high' _ => within?_range .., .inl rfl⟩
  cases b <;> simp_all [equal?, within?_of_null_bound]

end Value

namespace Language

namespace Expr

/-- The expression has no operands. -/
def isLeaf : Expr → Bool
  | .group _ | .unary .. | .binary .. | .sequence _ => false
  | _ => true

/-- Built from leaves with arithmetic, the operators before an operand and parentheses alone. -/
def IsComputed : Expr → Prop
  | .group inner => IsComputed inner
  | .unary _ operand => IsComputed operand
  | .binary op left right => op.isArithmetic = true ∧ IsComputed left ∧ IsComputed right
  | e => e.isLeaf = true

/-- What an expression is built from, from left to right; a list is taken whole. -/
def leaves : Expr → List Expr
  | .group inner => leaves inner
  | .unary _ operand => leaves operand
  | .binary _ left right => leaves left ++ leaves right
  | e => [e]

/-- The right side of an equality that asks for a layer, or for nothing at all. -/
def AsksPresence (right : Expr) : Prop :=
  (∃ name, right.ungrouped = .protocol name) ∨ right.ungrouped = .wildcard

def IsList (right : Expr) : Prop :=
  ∃ members, right.ungrouped = .sequence members

end Expr

variable {p : Packet} {now : Int64}

/-- Arithmetic with an unknown leaf is unknown. -/
theorem isNull_of_mem_leaves {leaf : Expr} (unknown : (evaluate p now leaf).isNull = true) :
    ∀ e : Expr, e.IsComputed → leaf ∈ e.leaves → (evaluate p now e).isNull = true
  | .group inner, computed, member => isNull_of_mem_leaves unknown inner computed member
  | .unary _ operand, computed, member =>
    isNull_of_unary (isNull_of_mem_leaves unknown operand computed member)
  | .binary op left right, ⟨arithmetic, first, second⟩, member => by
    rw [evaluate_arithmetic arithmetic]
    exact isNull_of_arithmetic arithmetic ((List.mem_append.mp member).imp
      (isNull_of_mem_leaves unknown left first) (isNull_of_mem_leaves unknown right second))
  | .sequence _, computed, _ => absurd computed Bool.false_ne_true
  | .integer _, _, member | .float _, _, member | .boolean _, _, member | .string _, _, member
  | .moment _, _, member | .now .., _, member | .ipv4 _, _, member | .mac _, _, member
  | .bytes _, _, member | .field _, _, member | .subscript .., _, member
  | .protocol _, _, member | .wildcard, _, member => List.mem_singleton.mp member ▸ unknown

/-! ### Comparisons -/

/-- What asks for a layer or for nothing has a known value that is no range. -/
theorem not_asksPresence {right : Expr}
    (other : evaluate p now right = .null ∨ (evaluate p now right).LacksBound) :
    ¬ right.AsksPresence := by
  rw [← evaluate_ungrouped p now right] at other
  rintro (⟨name, protocol⟩ | wildcard)
  · simp [protocol, evaluate, Value.LacksBound] at other
  · simp [wildcard, evaluate, Value.LacksBound] at other

/-- An equality that looks at both values is undecided where they are. -/
theorem equality_of_undecided {v : Value} {right : Expr}
    (undecided : v.Undecided (evaluate p now right)) (values : ¬ right.AsksPresence) :
    equality p v right (evaluate p now right) = none := by
  have same := evaluate_ungrouped p now right
  unfold equality
  split
  next name protocol => exact absurd (.inl ⟨name, protocol⟩) values
  next wildcard => exact absurd (.inr wildcard) values
  next network ipv4 =>
    rw [ipv4] at same
    simp [undecided.number.resolve_right fun other => other _ same.symm]
  next address mac =>
    rw [mac] at same
    simp [undecided.number.resolve_right fun other => other _ same.symm]
  next => exact undecided.equal

theorem contained?_of_undecided {v : Value} {right : Expr}
    (undecided : v.Undecided (evaluate p now right)) (unlisted : ¬ right.IsList) :
    contained? p now v right = none := by
  have same := evaluate_ungrouped p now right
  rw [contained?_other v fun ms listed => unlisted ⟨ms, listed⟩]
  unfold containment
  split
  next network ipv4 =>
    rw [ipv4] at same
    simp [undecided.number.resolve_right fun other => other _ same.symm]
  next =>
    split
    next low high range => exact undecided.within low high range
    next => exact undecided.equal

/-- A comparison whose values decide nothing is false, unless it looks past them. -/
theorem evaluate_of_undecided {op : BinaryOp} (comparison : op.isComparison = true)
    {left right : Expr} (undecided : (evaluate p now left).Undecided (evaluate p now right))
    (values : ¬ (op.isEquality = true ∧ right.AsksPresence))
    (unlisted : ¬ (op.isMembership = true ∧ right.IsList)) :
    evaluate p now (.binary op left right) = .bool false := by
  have equal : op.isEquality = true →
      equality p (evaluate p now left) right (evaluate p now right) = none :=
    fun equality => equality_of_undecided undecided fun asks => values ⟨equality, asks⟩
  have contained : op.isMembership = true →
      contained? p now (evaluate p now left) right = none :=
    fun membership => contained?_of_undecided undecided fun list => unlisted ⟨membership, list⟩
  cases op <;> simp [BinaryOp.isComparison] at comparison
  case equal => simp [evaluate_equal, equal rfl]
  case notEqual => simp [evaluate_notEqual, equal rfl]
  case member => rw [evaluate_membership rfl, contained rfl, Option.getD_none]
  case between => rw [evaluate_membership rfl, contained rfl, Option.getD_none]
  all_goals simp [evaluate, BinaryOp.apply, BinaryOp.test?, undecided.order]

/-- Arithmetic with an unknown leaf is unknown. A comparison is false where its left side is
unknown, unless it asks for a layer or for nothing; where its right side is, unless that is a list
to look into; and where either side is a range without one of its bounds and the other is not
`*`. -/
theorem unknown_never_matches (p : Packet) (now : Int64) :
    (∀ e leaf : Expr, e.IsComputed → leaf ∈ e.leaves → evaluate p now leaf = .null →
      evaluate p now e = .null) ∧
    ∀ (op : BinaryOp) (left right : Expr), op.isComparison = true →
      (evaluate p now left = .null → ¬ (op.isEquality = true ∧ right.AsksPresence) →
        evaluate p now (.binary op left right) = .bool false) ∧
      (evaluate p now right = .null → ¬ (op.isMembership = true ∧ right.IsList) →
        evaluate p now (.binary op left right) = .bool false) ∧
      ((evaluate p now right).LacksBound → evaluate p now left ≠ .any →
        ¬ (op.isMembership = true ∧ right.IsList) →
        evaluate p now (.binary op left right) = .bool false) ∧
      ((evaluate p now left).LacksBound → evaluate p now right ≠ .any →
        ¬ (op.isEquality = true ∧ right.AsksPresence) →
        ¬ (op.isMembership = true ∧ right.IsList) →
        evaluate p now (.binary op left right) = .bool false) := by
  constructor
  · intro e leaf computed member unknown
    exact Value.isNull_iff.mp
      (isNull_of_mem_leaves (Value.isNull_iff.mpr unknown) e computed member)
  intro op left right comparison
  refine ⟨fun null values => ?_, fun null unlisted => ?_, fun lacks other unlisted => ?_,
    fun lacks other values unlisted => ?_⟩
  · -- A list is looked into, but not for null.
    by_cases membership : op.isMembership = true
    · exact member_of_isNull membership (Value.isNull_iff.mpr null) right
    · exact evaluate_of_undecided comparison (null ▸ Value.undecided_of_null_left) values
        fun looks => membership looks.1
  · exact evaluate_of_undecided comparison (null ▸ Value.undecided_of_null_right)
      (fun asks => not_asksPresence (.inl null) asks.2) unlisted
  · exact evaluate_of_undecided comparison (Value.undecided_of_lacksBound_right lacks other)
      (fun asks => not_asksPresence (.inr lacks) asks.2) unlisted
  · exact evaluate_of_undecided comparison (Value.undecided_of_lacksBound_left lacks other)
      values unlisted

/-- A UDP datagram from one host of a network to another. -/
def sampleDatagram : Packet :=
  .decode Protocol.all Protocol.ethernetLink
    (Assembly.udpFrame [10, 0, 0, 2] [10, 0, 0, 3] 1000 2000 []) ⟨1, 24, 0, 42, 42⟩

theorem unknown_never_matches_tcp :
    evaluate sampleDatagram 0 (.field "tcp.dport") = .null ∧
      evaluate sampleDatagram 0
        (.binary .add (.unary .negate (.group (.field "tcp.dport"))) (.integer 1)) = .null ∧
      evaluate sampleDatagram 0 (.binary .notEqual (.field "tcp.dport") (.integer 80))
        = .bool false ∧
      evaluate sampleDatagram 0 (.binary .atLeast (.integer 80) (.field "tcp.dport"))
        = .bool false ∧
      evaluate sampleDatagram 0 (.binary .member (.integer 80)
        (.group (.binary .range (.integer 1) (.field "tcp.dport")))) = .bool false ∧
      evaluate sampleDatagram 0 (.binary .notEqual
        (.binary .range (.integer 1) (.field "tcp.dport")) (.integer 80)) = .bool false := by
  have missing : (sampleDatagram.field? "tcp.dport").isNone = true := by decide +kernel
  have unknown : evaluate sampleDatagram 0 (.field "tcp.dport") = .null := by
    rw [evaluate, Option.isNone_iff_eq_none.mp missing]
    rfl
  have never := unknown_never_matches sampleDatagram 0
  have bound : (evaluate sampleDatagram 0
      (.binary .range (.integer 1) (.field "tcp.dport"))).LacksBound := .inr unknown
  refine ⟨unknown, ?_, ?_, ?_, ?_, ?_⟩
  · exact never.1 _ (.field "tcp.dport") ⟨rfl, rfl, rfl⟩ (by simp [Expr.leaves]) unknown
  · exact (never.2 .notEqual _ (.integer 80) rfl).1 unknown
      (by simp [Expr.AsksPresence, Expr.ungrouped])
  · exact (never.2 .atLeast (.integer 80) _ rfl).2.1 unknown (by simp [BinaryOp.isMembership])
  · exact (never.2 .member (.integer 80) (.group _) rfl).2.2.1 bound (by simp [evaluate])
      (by simp [Expr.IsList, Expr.ungrouped])
  · exact (never.2 .notEqual _ (.integer 80) rfl).2.2.2 bound (by simp [evaluate])
      (by simp [Expr.AsksPresence, Expr.ungrouped]) (by simp [BinaryOp.isMembership])

end Language

end PacketQuery
