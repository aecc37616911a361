import PacketQuery.Language.Eval
import PacketQuery.Proofs.Language.Mention
/-!
What depends on the place of a packet: only two fields of the pseudo-layer `frame`. An expression
that does not name them has the same value wherever the record of the packet lies.
-/

namespace PacketQuery

namespace Packet

/-- The packet with its record at another place. -/
def placed (p : Packet) (segment : UInt32) (offset : UInt64) : Packet :=
  { p with capture := { p.capture with segment, offset } }

/-- A dotted name gives the number of the segment, or the offset of the record in it. -/
def namesPlace (name : String) : Bool :=
  match Text.cut '.' name with
  | none => false
  | some (layer, field) => Text.same "frame" layer && (field == "segment" || field == "offset")

/-- Two packets answer to the same layers and have the same bytes. -/
structure SameContent (p q : Packet) : Prop where
  layers : ∀ name, p.hasLayer name = q.hasLayer name
  bytes : ∀ base start length, p.bytes? base start length = q.bytes? base start length

variable (p : Packet) (segment : UInt32) (offset : UInt64)

theorem sameContent_placed : SameContent (p.placed segment offset) p :=
  ⟨fun _ => rfl, fun _ _ _ => rfl⟩

theorem frameField?_placed {name : String} (free : name ≠ "segment" ∧ name ≠ "offset") :
    (p.placed segment offset).frameField? name = p.frameField? name := by
  unfold frameField?
  split
  all_goals first | rfl | simp_all

theorem field?_placed {name : String} (free : namesPlace name = false) :
    (p.placed segment offset).field? name = p.field? name := by
  unfold field?
  unfold namesPlace at free
  split
  next => rfl
  next layer field parts =>
    simp only [parts, Bool.and_eq_false_iff, Bool.or_eq_false_iff, beq_eq_false_iff_ne] at free
    split
    next frame =>
      refine p.frameField?_placed segment offset (free.resolve_left ?_)
      rw [frame]
      exact Bool.true_eq_false.mp
    next => rfl

end Packet

namespace Language

section Congruence

variable {p q : Packet}

theorem equality_congr (same : p.SameContent q) (left : Value) (right : Expr)
    (rightValue : Value) : equality p left right rightValue = equality q left right rightValue := by
  unfold equality
  split <;> simp only [same.layers]

mutual

/-- The value of an expression comes from the layers, the bytes and the fields that it mentions. -/
theorem evaluate_congr (same : p.SameContent q) (now : Int64) : ∀ e : Expr,
    (∀ name, .field name ∈ e.mentions → p.field? name = q.field? name) →
    evaluate p now e = evaluate q now e
  | .field name, fields => by
    have read := fields name (by simp [Expr.mentions])
    simp only [evaluate, read]
  | .subscript base start length, _ => by simp only [evaluate, same.bytes]
  | .protocol name, _ => by simp only [evaluate, same.layers]
  | .group inner, fields => evaluate_congr same now inner fields
  | .unary op operand, fields => by
    have value := evaluate_congr same now operand fields
    simp only [evaluate, value]
  | .binary op left right, fields => by
    have first := evaluate_congr same now left fun name member =>
      fields name (by simp [Expr.mentions, member])
    have second := evaluate_congr same now right fun name member =>
      fields name (by simp [Expr.mentions, member])
    have members := members?_congr same now right fun name member =>
      fields name (by simp [Expr.mentions, member])
    cases op <;> simp only [evaluate, first, second, members, equality_congr same]
  | .sequence es, fields => by
    have values := evaluateAll_congr same now es fields
    simp only [evaluate, values]
  | .integer _, _ | .float _, _ | .boolean _, _ | .string _, _ | .moment _, _ | .now .., _
  | .ipv4 _, _ | .mac _, _ | .bytes _, _ | .wildcard, _ => by simp only [evaluate]

theorem members?_congr (same : p.SameContent q) (now : Int64) : ∀ e : Expr,
    (∀ name, .field name ∈ e.mentions → p.field? name = q.field? name) →
    members? p now e = members? q now e
  | .group inner, fields => members?_congr same now inner fields
  | .sequence es, fields => congrArg some (evaluateAll_congr same now es fields)
  | .integer _, _ | .float _, _ | .boolean _, _ | .string _, _ | .moment _, _ | .now .., _
  | .ipv4 _, _ | .mac _, _ | .bytes _, _ | .wildcard, _ | .field _, _ | .subscript .., _
  | .protocol _, _ | .unary .., _ | .binary .., _ => rfl

theorem evaluateAll_congr (same : p.SameContent q) (now : Int64) : ∀ es : List Expr,
    (∀ name, .field name ∈ Expr.mentionsOfAll es → p.field? name = q.field? name) →
    evaluateAll p now es = evaluateAll q now es
  | [], _ => rfl
  | e :: es, fields => by
    have first := evaluate_congr same now e fun name member =>
      fields name (by simp [Expr.mentionsOfAll, member])
    have rest := evaluateAll_congr same now es fun name member =>
      fields name (by simp [Expr.mentionsOfAll, member])
    simp only [evaluateAll, first, rest]

end

end Congruence

theorem accepts_placed (p : Packet) (segment : UInt32) (offset : UInt64) (now : Int64)
    {filter : Expr}
    (free : ∀ name, .field name ∈ filter.mentions → Packet.namesPlace name = false) :
    accepts (p.placed segment offset) now filter = accepts p now filter := by
  have fields : ∀ name, .field name ∈ filter.mentions →
      (p.placed segment offset).field? name = p.field? name :=
    fun name member => p.field?_placed segment offset (free name member)
  rw [accepts, accepts, evaluate_congr (p.sameContent_placed segment offset) now filter fields]

end Language

end PacketQuery
