import PacketQuery.Proofs.Value.Comparison
/-!
The comparisons of the language agree with each other: `<=` holds where `<` or `==` does, and `in`
a range where the value is neither below the range nor above it.
-/

namespace PacketQuery.Language

/-- As the right side of `==` the expression stands for its value: it is no protocol, address or
`*`, which mean more there. -/
def Expr.comparesValue (right : Expr) : Bool :=
  match right.ungrouped with
  | .protocol _ | .wildcard | .ipv4 _ | .mac _ => false
  | _ => true

variable {p : Packet} {now : Int64}

theorem equality_of_comparesValue {right : Expr} (value : right.comparesValue = true)
    (v w : Value) : equality p v right w = v.equal? w := by
  unfold Expr.comparesValue at value
  unfold equality
  cases shape : right.ungrouped <;> simp_all

theorem evaluate_test {op : BinaryOp} {test : Ordering → Bool} (asks : op.test? = some test)
    (left right : Expr) : evaluate p now (.binary op left right)
      = .bool (((evaluate p now left).compare? (evaluate p now right)).any test) := by
  cases op <;> simp only [BinaryOp.test?, Option.some.injEq, reduceCtorEq] at asks <;>
    subst asks <;> rfl

/-- A value lies in a range where it is neither below nor above it. -/
theorem containment_range (v : Value) {right : Expr} {low high : Expr}
    (range : right.ungrouped = .binary .range low high) :
    containment v right (evaluate p now right)
      = v.within? (evaluate p now low) (evaluate p now high) := by
  have value : evaluate p now right = .range (evaluate p now low) (evaluate p now high) := by
    rw [← evaluate_ungrouped, range]
    rfl
  simp only [containment, range, value]

/-- Whichever of two values comes first, equality says the same and the order the reverse; single
values are equal exactly where the order says so; and a value is within bounds exactly where it is
ordered with both, not below the one and not above the other. So `<=` is `<` or `==`, and `in` a
range is `>=` its lower bound and `<=` its upper one. -/
theorem comparisons_cohere (p : Packet) (now : Int64) :
    (∀ a b : Value, a.equal? b = b.equal? a ∧ b.compare? a = (a.compare? b).map Ordering.swap ∧
      (a.isSingle = true → b.isSingle = true →
        (a.equal? b = some true ↔ a.compare? b = some .eq))) ∧
    (∀ v low high : Value, v.within? low high = some true ↔
      ∃ o o', v.compare? low = some o ∧ v.compare? high = some o' ∧ o ≠ .lt ∧ o' ≠ .gt) ∧
    (∀ left right : Expr, right.comparesValue = true →
      (evaluate p now left).isSingle = true → (evaluate p now right).isSingle = true →
      evaluate p now (.binary .atMost left right)
        = evaluate p now (.binary .or (.binary .less left right) (.binary .equal left right))) ∧
    ∀ (op : BinaryOp) (left right low high : Expr), op.isMembership = true →
      right.ungrouped = .binary .range low high →
      evaluate p now (.binary op left right)
        = evaluate p now (.binary .and (.binary .atLeast left low) (.binary .atMost left high)) := by
  refine ⟨fun a b => ⟨a.equal?_comm b, a.compare?_swap b, Value.equal?_iff_compare?⟩,
    Value.within?_iff, fun left right value first second => ?_,
    fun op left right low high membership range => ?_⟩
  · have agree := Value.equal?_iff_compare? first second
    have either : evaluate p now
        (.binary .or (.binary .less left right) (.binary .equal left right))
        = .bool ((evaluate p now (.binary .less left right)).isTruthy
          || (evaluate p now (.binary .equal left right)).isTruthy) := by
      simp only [evaluate]
    rw [either, evaluate_test rfl, evaluate_test rfl, evaluate_equal,
      equality_of_comparesValue value]
    generalize (evaluate p now left).equal? (evaluate p now right) = equal at agree
    generalize (evaluate p now left).compare? (evaluate p now right) = order at agree
    rcases equal with _ | _ | _ <;> rcases order with _ | _ | _ | _ <;> simp_all [Value.isTruthy]
  · have both : evaluate p now
        (.binary .and (.binary .atLeast left low) (.binary .atMost left high))
        = .bool ((evaluate p now (.binary .atLeast left low)).isTruthy
          && (evaluate p now (.binary .atMost left high)).isTruthy) := by
      simp only [evaluate]
    have unlisted : ∀ ms, right.ungrouped ≠ .sequence ms := by simp [range]
    rw [evaluate_membership membership, contained?_other _ unlisted, containment_range _ range,
      both, evaluate_test rfl, evaluate_test rfl]
    generalize evaluate p now left = v
    cases fromLow : v.compare? (evaluate p now low) <;>
      cases fromHigh : v.compare? (evaluate p now high) <;>
      simp [Value.within?, fromLow, fromHigh, Value.isTruthy]

/-- Two bytes, an integer and a float with values in common. -/
theorem comparisons_cohere_coerced :
    (Value.bytes [1, 0xbb]).equal? (.int 443) = some true ∧
      (Value.int 443).compare? (.bytes [1, 0xbb]) = some .eq ∧
      evaluate sampleDatagram 0 (.binary .atMost (.bytes [1, 0xbb]) (.integer 443))
        = .bool true ∧
      evaluate sampleDatagram 0 (.binary .between (.integer 443)
        (.group (.binary .range (.bytes [1, 0xbb]) (.float (Number.ofInt64 443)))))
        = .bool true := by
  have cohere := comparisons_cohere sampleDatagram 0
  have order : (Value.int 443).compare? (.bytes [1, 0xbb]) = some .eq := rfl
  have equal : (Value.bytes [1, 0xbb]).equal? (.int 443) = some true := by
    rw [(cohere.1 _ _).1]
    exact ((cohere.1 _ _).2.2 rfl rfl).mpr order
  refine ⟨equal, order, ?_, ?_⟩
  · rw [cohere.2.2.1 _ _ rfl rfl rfl]
    rfl
  · rw [cohere.2.2.2 _ _ _ _ _ rfl rfl]
    rfl

end PacketQuery.Language
