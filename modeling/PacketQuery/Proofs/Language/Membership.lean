import PacketQuery.Proofs.Language.Unknown
/-!
Membership in a list. A value is in a list where it is equal to a member, but a list compares
values where `==` looks at the kind of its right side: as a member a protocol is the truth value
of its layer and not a test for it, and a hardware address is its number for every left value.
-/

namespace PacketQuery

/-- A value that equals an integer exactly where it becomes that integer. -/
def Value.isExact : Value → Bool
  | .bool _ | .int _ | .text _ | .bytes _ => true
  | _ => false

theorem Value.equal?_int_of_isExact {v : Value} (exact : v.isExact = true) (n : Int64) :
    v.equal? (.int n) = v.int?.map (· == n) := by
  have whole : v.equal? (.int n) = v.int?.bind fun a => some (a == n) := by
    cases v <;> first | exact absurd exact Bool.false_ne_true | rfl
  rw [whole]
  cases v.int? <;> rfl

namespace Language

/-- The expression as a list compares it: a protocol and a hardware address lose their meaning on
the right of `==` behind a plus sign, and keep their value. -/
def Expr.byValue : Expr → Expr
  | .protocol name => .unary .plus (.protocol name)
  | .mac address => .unary .plus (.mac address)
  | e => e

variable {p : Packet} {now : Int64}

theorem evaluate_byValue (e : Expr) : evaluate p now e.byValue = evaluate p now e := by
  cases e <;> rfl

theorem getD_map_any (v : Value) (contains : UInt32 → Bool) :
    (v.int?.map fun _ => v.ipv4?.any contains).getD false = v.ipv4?.any contains := by
  cases number : v.int? with
  | none => simp [Value.ipv4?, number]
  | some n => rfl

theorem getD_eq_beq (decided : Option Bool) : decided.getD false = (decided == some true) := by
  rcases decided with _ | _ | _ <;> rfl

/-- A member of a list matches where it is equal by its value. -/
theorem isMember_eq_equality (p : Packet) (now : Int64) {m : Expr}
    (opened : ∀ inner, m ≠ .group inner) {v : Value} (known : v ≠ .null) :
    isMember v (m, evaluate p now m)
      = (equality p v m.byValue (evaluate p now m)).getD false := by
  cases m with
  | group inner => exact absurd rfl (opened inner)
  | ipv4 net => exact (getD_map_any v net.contains).symm
  | wildcard => cases v <;> first | exact absurd rfl known | rfl
  | _ => exact (getD_eq_beq _).symm

theorem evaluate_equal_byValue {left : Expr} (m : Expr) :
    evaluate p now (.binary .equal left m.byValue)
      = .bool ((equality p (evaluate p now left) m.byValue (evaluate p now m)).getD false) := by
  rw [evaluate_equal, evaluate_byValue]

/-- Only a protocol, and a hardware address beside a value that is no exact number, mean more on
the right of `==` than their values. -/
theorem equality_byValue (p : Packet) (now : Int64) {m : Expr} (v : Value)
    (protocol : ∀ name, m ≠ .protocol name)
    (mac : ∀ address, m = .mac address → v.isExact = true) :
    equality p v m.byValue (evaluate p now m) = equality p v m (evaluate p now m) := by
  cases m with
  | protocol name => exact absurd rfl (protocol name)
  | mac address => exact v.equal?_int_of_isExact (mac address rfl) _
  | _ => rfl

/-- A known value is in a list exactly where it is equal to a member by its value. Without
protocols among the members, and without hardware addresses unless the value is exact, that is
where it is equal to a member. -/
theorem member_iff_exists_equal (p : Packet) (now : Int64) {op : BinaryOp}
    (membership : op.isMembership = true) {left right : Expr} {ms : List Expr}
    (listed : right.ungrouped = .sequence ms) (opened : ∀ inner, .group inner ∉ ms)
    (known : evaluate p now left ≠ .null) :
    (evaluate p now (.binary op left right) = .bool true ↔
        ∃ m ∈ ms, evaluate p now (.binary .equal left m.byValue) = .bool true) ∧
      ((∀ name, .protocol name ∉ ms) →
        (∀ address, .mac address ∈ ms → (evaluate p now left).isExact = true) →
        (evaluate p now (.binary op left right) = .bool true ↔
          ∃ m ∈ ms, evaluate p now (.binary .equal left m) = .bool true)) := by
  have byValue : evaluate p now (.binary op left right) = .bool true ↔
      ∃ m ∈ ms, evaluate p now (.binary .equal left m.byValue) = .bool true := by
    rw [evaluate_membership membership, contained?_list _ listed, membership_of_known known,
      evaluateAll_eq_map, Option.getD_some, Value.bool.injEq, List.any_map, List.any_eq_true]
    refine exists_congr fun m => and_congr_right fun member => ?_
    have same := isMember_eq_equality p now (fun inner group => opened inner (group ▸ member)) known
    rw [evaluate_equal_byValue, Value.bool.injEq, Function.comp_apply, same]
  refine ⟨byValue, fun protocols macs => byValue.trans ?_⟩
  refine exists_congr fun m => and_congr_right fun member => ?_
  have same := equality_byValue p now (evaluate p now left)
    (fun name protocol => protocols name (protocol ▸ member))
    (fun address mac => macs address (mac ▸ member))
  rw [evaluate_equal_byValue, same, evaluate_equal]

/-- The network 10.0.0.0/8, which holds both addresses of the sample datagram. -/
def sampleOwnNetwork : Expr :=
  .ipv4 (.of 0x0A000000 8)

theorem member_of_own_network :
    evaluate sampleDatagram 0 (.field "ip.src") ≠ .null ∧
      evaluate sampleDatagram 0 (.binary .member (.field "ip.src")
        (.sequence [.protocol "TCP", sampleOwnNetwork])) = .bool true ∧
      evaluate sampleDatagram 0 (.binary .between (.field "ip.src")
        (.group (.sequence [.integer 53, sampleOwnNetwork]))) = .bool true := by
  have known : evaluate sampleDatagram 0 (.field "ip.src") ≠ .null :=
    Value.isNull_eq_false_iff.mp (by decide +kernel)
  have equal : evaluate sampleDatagram 0 (.binary .equal (.field "ip.src") sampleOwnNetwork)
      = .bool true := by
    rw [evaluate_equal]
    exact congrArg Value.bool (by decide +kernel)
  refine ⟨known, ?_, ?_⟩
  · exact (member_iff_exists_equal sampleDatagram 0 rfl rfl (by simp [sampleOwnNetwork])
      known).1.mpr ⟨sampleOwnNetwork, by simp, equal⟩
  · exact ((member_iff_exists_equal sampleDatagram 0 rfl rfl (by simp [sampleOwnNetwork])
      known).2 (by simp [sampleOwnNetwork]) (by simp [sampleOwnNetwork])).mpr
        ⟨sampleOwnNetwork, by simp, equal⟩

/-- A protocol on the right of `==` asks for its layer, in a list it does not. A range on the left
becomes no number beside a hardware address, in a list it holds the address's number. -/
theorem member_is_not_exists_equal :
    evaluate sampleDatagram 0 (.field "frame.protocols") ≠ .null ∧
      evaluate sampleDatagram 0 (.binary .equal (.field "frame.protocols") (.protocol "UDP"))
        = .bool true ∧
      evaluate sampleDatagram 0 (.binary .member (.field "frame.protocols")
        (.sequence [.protocol "UDP", .protocol "TCP"])) = .bool false ∧
      evaluate sampleDatagram 0 (.binary .equal
        (.binary .range (.integer 1) (.integer 5)) (.mac 3)) = .bool false ∧
      evaluate sampleDatagram 0 (.binary .equal
        (.binary .range (.integer 1) (.integer 5)) (.mac 7)) = .bool false ∧
      evaluate sampleDatagram 0 (.binary .member (.binary .range (.integer 1) (.integer 5))
        (.sequence [.mac 3, .mac 7])) = .bool true := by
  refine ⟨Value.isNull_eq_false_iff.mp (by decide +kernel), ?_, ?_, rfl, rfl, ?_⟩
  · rw [evaluate_equal]
    exact congrArg Value.bool (by decide +kernel)
  · rw [evaluate_membership rfl]
    exact congrArg Value.bool (by decide +kernel)
  · rw [evaluate_membership rfl]
    exact congrArg Value.bool (by decide +kernel)

end Language

end PacketQuery
