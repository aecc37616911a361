import PacketQuery.Proofs.Language.Unknown
import PacketQuery.Proofs.Value.Comparable
/-!
Equality and difference. Never do both hold; one of them does exactly where the right side
decides about the left value: always if it asks for a layer or is `*`, for an address if the left
value has an integer, and for a value if the two can be compared.
-/

namespace PacketQuery.Language

/-- The right side of `==` and `!=`, with the value `w`, decides about the value `v`. -/
def Expr.Decides (right : Expr) (v w : Value) : Prop :=
  match right.ungrouped with
  | .protocol _ | .wildcard => True
  | .ipv4 _ | .mac _ => v.hasInteger = true
  | _ => v.Comparable w

variable {p : Packet} {now : Int64}

theorem isSome_equality_iff (v : Value) (right : Expr) (w : Value) :
    (equality p v right w).isSome = true ↔ right.Decides v w := by
  unfold equality Expr.Decides
  cases right.ungrouped with
  | protocol name => exact iff_of_true rfl trivial
  | wildcard => exact iff_of_true rfl trivial
  | ipv4 network => simp only [Option.isSome_map, Value.isSome_int?]
  | mac address => simp only [Option.isSome_map, Value.isSome_int?]
  | _ => exact Value.isSome_equal?_iff v w

/-- Of `==` and `!=` exactly one holds where the right side decides about the left value, and
neither elsewhere. Two values are undecided exactly where they cannot be compared. -/
theorem equality_complementary (p : Packet) (now : Int64) :
    (∀ left right : Expr,
      ((∃ b, evaluate p now (.binary .equal left right) = .bool b ∧
          evaluate p now (.binary .notEqual left right) = .bool (!b)) ↔
        right.Decides (evaluate p now left) (evaluate p now right)) ∧
      (evaluate p now (.binary .equal left right) = .bool false ∧
          evaluate p now (.binary .notEqual left right) = .bool false ↔
        ¬ right.Decides (evaluate p now left) (evaluate p now right))) ∧
    ∀ a b : Value, a.equal? b = none ↔ ¬ a.Comparable b := by
  refine ⟨fun left right => ?_, fun a b => ?_⟩
  · rw [← isSome_equality_iff (p := p), evaluate_equal, evaluate_notEqual]
    cases equality p (evaluate p now left) right (evaluate p now right) with
    | none => simp
    | some b => cases b <;> simp
  · rw [← Value.isSome_equal?_iff, Option.not_isSome_iff_eq_none]

/-- A text and a number are neither equal nor different. -/
theorem equality_leaves_out_text :
    evaluate sampleDatagram 0 (.string "a") ≠ .null ∧
      evaluate sampleDatagram 0 (.integer 1) ≠ .null ∧
      evaluate sampleDatagram 0 (.binary .equal (.string "a") (.integer 1)) = .bool false ∧
      evaluate sampleDatagram 0 (.binary .notEqual (.string "a") (.integer 1)) = .bool false ∧
      (Value.text "a").equal? (.int 1) = none :=
  ⟨nofun, nofun, rfl, rfl, rfl⟩

end PacketQuery.Language
