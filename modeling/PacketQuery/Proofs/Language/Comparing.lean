import PacketQuery.Language.Eval
/-!
How a comparison comes to its truth value: from the order of two values, from the equality with
the right side, or from the containment in it. Where that is undecided the comparison is false,
and so is its negation.
-/

namespace PacketQuery.Language

namespace BinaryOp

/-- The operators `==` and `!=`. -/
def isEquality : BinaryOp → Bool
  | equal | notEqual => true
  | _ => false

/-- The operators `in` and `between`. -/
def isMembership : BinaryOp → Bool
  | member | between => true
  | _ => false

/-- The operators `<`, `<=`, `>`, `>=`, `==`, `!=`, `in` and `between`. -/
def isComparison : BinaryOp → Bool
  | less | atMost | greater | atLeast | equal | notEqual | member | between => true
  | _ => false

end BinaryOp

variable {p : Packet} {now : Int64}

theorem evaluateAll_eq_map (es : List Expr) :
    evaluateAll p now es = es.map fun e => (e, evaluate p now e) := by
  induction es with
  | nil => simp [evaluateAll]
  | cons e es ih => simp [evaluateAll, ih]

theorem evaluate_ungrouped (p : Packet) (now : Int64) (e : Expr) :
    evaluate p now e.ungrouped = evaluate p now e := by
  induction e using Expr.ungrouped.induct with
  | case1 inner ih => simpa [Expr.ungrouped, evaluate] using ih
  | case2 e plain => rw [Expr.ungrouped.eq_2 e plain]

theorem Expr.ungrouped_ne_group (e inner : Expr) : e.ungrouped ≠ .group inner := by
  induction e using Expr.ungrouped.induct with
  | case1 e ih => simpa [Expr.ungrouped] using ih
  | case2 e plain => simpa [Expr.ungrouped.eq_2 e plain] using plain inner

theorem members?_ungrouped (p : Packet) (now : Int64) (e : Expr) :
    members? p now e.ungrouped = members? p now e := by
  induction e using Expr.ungrouped.induct with
  | case1 inner ih => simpa [Expr.ungrouped, members?] using ih
  | case2 e plain => rw [Expr.ungrouped.eq_2 e plain]

theorem members?_of_sequence {e : Expr} {ms : List Expr} (listed : e.ungrouped = .sequence ms) :
    members? p now e = some (evaluateAll p now ms) := by
  rw [← members?_ungrouped, listed, members?]

theorem members?_eq_none {e : Expr} (unlisted : ∀ ms, e.ungrouped ≠ .sequence ms) :
    members? p now e = none := by
  rw [← members?_ungrouped]
  cases shape : e.ungrouped with
  | group inner => exact absurd shape (e.ungrouped_ne_group inner)
  | sequence ms => exact absurd shape (unlisted ms)
  | _ => rfl

theorem membership_of_known {v : Value} (known : v ≠ .null) (members : List (Expr × Value)) :
    membership v members = some (members.any (isMember v)) := by
  cases v with
  | null => exact absurd rfl known
  | _ => rfl

/-- Whether a value is contained in the right side of `in`: a list, a network, a range or a
value. -/
def contained? (p : Packet) (now : Int64) (left : Value) (right : Expr) : Option Bool :=
  (members? p now right).elim (containment left right (evaluate p now right)) (membership left)

theorem contained?_list (left : Value) {right : Expr} {ms : List Expr}
    (listed : right.ungrouped = .sequence ms) :
    contained? p now left right = membership left (evaluateAll p now ms) := by
  rw [contained?, members?_of_sequence listed, Option.elim_some]

theorem contained?_other (left : Value) {right : Expr}
    (unlisted : ∀ ms, right.ungrouped ≠ .sequence ms) :
    contained? p now left right = containment left right (evaluate p now right) := by
  rw [contained?, members?_eq_none unlisted, Option.elim_none]

theorem evaluate_equal (left right : Expr) : evaluate p now (.binary .equal left right) =
    .bool ((equality p (evaluate p now left) right (evaluate p now right)).getD false) := by
  simp only [evaluate]

theorem evaluate_notEqual (left right : Expr) : evaluate p now (.binary .notEqual left right) =
    .bool ((equality p (evaluate p now left) right (evaluate p now right)).any (!·)) := by
  simp only [evaluate]

theorem evaluate_membership {op : BinaryOp} (membership : op.isMembership = true)
    (left right : Expr) : evaluate p now (.binary op left right) =
      .bool ((contained? p now (evaluate p now left) right).getD false) := by
  cases op <;> simp [BinaryOp.isMembership] at membership <;> simp only [evaluate, contained?] <;>
    cases members? p now right <;> rfl

end PacketQuery.Language
