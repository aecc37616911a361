import PacketQuery.Proofs.Value.Ranking
import PacketQuery.Rows.Grouping
/-!
The order of group keys. It is a ranking exactly where the order of their values is one.
-/

namespace PacketQuery.Rows

variable {among : Value → Prop}

theorem compareKeys_self (key : List Value) : compareKeys key key = .eq :=
  Order.lexicographic_self fun v _ => v.order_self

theorem compareKeys_swap (key key' : List Value) :
    compareKeys key' key = (compareKeys key key').swap :=
  Order.lexicographic_swap Value.order_swap key key'

/-- All numbers of a key are among the given ones. -/
def KeyOf (among : Value → Prop) (key : List Value) : Prop :=
  ∀ v ∈ key, v.BuiltOf among

theorem compareKeys_consistent (unblurred : Value.Unblurred among) {a b c : List Value}
    (first : KeyOf among a) (second : KeyOf among b) (third : KeyOf among c) :
    Order.Consistent (compareKeys a b) (compareKeys b c) (compareKeys a c) :=
  Order.consistent_lexicographic fun v inside v' inside' v'' inside'' =>
    Value.order_consistent unblurred (first v inside) (second v' inside') (third v'' inside'')

/-- Where no integer is also a float, only equal keys are ranked equal. -/
theorem compareKeys_eq_eq (unmixed : Value.Unmixed among) {key key' : List Value}
    (first : KeyOf among key) (second : KeyOf among key') :
    compareKeys key key' = .eq ↔ key = key' :=
  Order.lexicographic_eq_eq fun v inside w inside' =>
    Value.order_eq_eq unmixed (first v inside) (second w inside')

/-- The order of keys of one value is the order of the values. -/
theorem compareKeys_singleton (v w : Value) : compareKeys [v] [w] = v.order w := by
  rw [compareKeys, Order.lexicographic, Order.lexicographic]
  cases v.order w <;> rfl

/-- Every value and every key has its place beside every other, whichever of the two is asked
first. Among the values built of given numbers, and among the keys of such values, the places make
one ranking exactly if no two integers are rounded to one float that is there too; integers of 53
bits are not. -/
theorem ranking_iff_unblurred (among : Value → Prop) :
    (∀ a : Value, a.order a = .eq) ∧ (∀ a b : Value, b.order a = (a.order b).swap) ∧
    (∀ a, compareKeys a a = .eq) ∧ (∀ a b, compareKeys b a = (compareKeys a b).swap) ∧
    (Order.TransitiveOn Value.order (Value.BuiltOf among) ↔ Value.Unblurred among) ∧
    (Order.TransitiveOn compareKeys (KeyOf among) ↔ Value.Unblurred among) ∧
    ((∀ n, among (.int n) → n.toInt.natAbs ≤ 2 ^ 53) → Value.Unblurred among) := by
  have values (unblurred : Value.Unblurred among) :
      Order.TransitiveOn Value.order (Value.BuiltOf among) :=
    fun a b c first second third => (Value.order_consistent unblurred first second third).trans
  have keys (unblurred : Value.Unblurred among) :
      Order.TransitiveOn compareKeys (KeyOf among) :=
    fun a b c first second third => (compareKeys_consistent unblurred first second third).trans
  have single (transitive : Order.TransitiveOn compareKeys (KeyOf among)) :
      Order.TransitiveOn Value.order (Value.BuiltOf among) := by
    intro a b c first second third
    have shown := transitive [a] [b] [c] (List.forall_mem_singleton.mpr first)
      (List.forall_mem_singleton.mpr second) (List.forall_mem_singleton.mpr third)
    simpa only [compareKeys_singleton] using shown
  exact ⟨Value.order_self, Value.order_swap, compareKeys_self, compareKeys_swap,
    ⟨Value.unblurred_of_transitive, values⟩,
    ⟨fun transitive => Value.unblurred_of_transitive (single transitive), keys⟩,
    Value.unblurred_of_small⟩

/-- The float 2⁵³ is ranked with both of two integers that are ranked apart. -/
theorem ranking_blurred :
    (Value.int 9007199254740993).order (.float (Number.ofInt64 9007199254740992)) ≠ .gt ∧
    (Value.float (Number.ofInt64 9007199254740992)).order (.int 9007199254740992) ≠ .gt ∧
    (Value.int 9007199254740993).order (.int 9007199254740992) = .gt := by
  decide

end PacketQuery.Rows
