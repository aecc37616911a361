import PacketQuery.Proofs.Language.Unknown
/-!
What parentheses do to a value. Taken away they leave every value as it is, but for one place:
a network in parentheses among the members of a list stands for its one address, and without them
for all addresses in it. An expression keeps its values exactly where no list test meets a value
that tells the two apart.
-/

namespace PacketQuery.Language

namespace Expr

mutual

/-- The expression without any of its parentheses. -/
def bare : Expr → Expr
  | .group inner => bare inner
  | .unary op operand => .unary op (bare operand)
  | .binary op left right => .binary op (bare left) (bare right)
  | .sequence members => .sequence (bareAll members)
  | e => e

/-- The expressions without any of their parentheses. -/
def bareAll : List Expr → List Expr
  | [] => []
  | e :: es => bare e :: bareAll es

end

mutual

/-- The expression and every expression within it. -/
def parts : Expr → List Expr
  | .group inner => .group inner :: parts inner
  | .unary op operand => .unary op operand :: parts operand
  | .binary op left right => .binary op left right :: (parts left ++ parts right)
  | .sequence members => .sequence members :: partsOfAll members
  | e => [e]

/-- The parts of expressions one after another. -/
def partsOfAll : List Expr → List Expr
  | [] => []
  | e :: es => parts e ++ partsOfAll es

end

/-- The network that stands in parentheses. -/
def enclosed? : Expr → Option Network
  | .group inner =>
    match inner.ungrouped with
    | .ipv4 net => some net
    | _ => none
  | _ => none

/-- A part of the expression asks whether `left` is in the list of `members`. -/
def TestsList (e left : Expr) (members : List Expr) : Prop :=
  ∃ op right, .binary op left right ∈ e.parts ∧ op.isMembership = true ∧
    right.ungrouped = .sequence members

theorem bareAll_eq_map (es : List Expr) : bareAll es = es.map bare := by
  induction es with
  | nil => simp [bareAll]
  | cons e es ih => simp [bareAll, ih]

theorem partsOfAll_eq_flatMap (es : List Expr) : partsOfAll es = es.flatMap parts := by
  induction es with
  | nil => simp [partsOfAll]
  | cons e es ih => simp [partsOfAll, ih]

theorem bare_ungrouped (e : Expr) : e.ungrouped.bare = e.bare := by
  induction e using ungrouped.induct with
  | case1 inner ih => simpa [ungrouped, bare] using ih
  | case2 e plain => rw [ungrouped.eq_2 e plain]

theorem ungrouped_bare : ∀ e : Expr, e.bare.ungrouped = e.bare
  | .group inner => by simpa only [bare] using ungrouped_bare inner
  | .unary .. | .binary .. | .sequence _ => by simp only [bare, ungrouped]
  | .integer _ | .float _ | .boolean _ | .string _ | .moment _ | .now .. | .ipv4 _ | .mac _
  | .bytes _ | .field _ | .subscript .. | .protocol _ | .wildcard => rfl

theorem bare_of_sequence {e : Expr} {ms : List Expr} (listed : e.ungrouped = .sequence ms) :
    e.bare = .sequence (bareAll ms) := by
  rw [← bare_ungrouped, listed, bare]

theorem bare_ne_sequence {e : Expr} (unlisted : ∀ ms, e.ungrouped ≠ .sequence ms)
    (ms : List Expr) : e.bare.ungrouped ≠ .sequence ms := by
  rw [ungrouped_bare, ← bare_ungrouped]
  cases shape : e.ungrouped with
  | group inner => exact absurd shape (e.ungrouped_ne_group inner)
  | sequence ms => exact absurd shape (unlisted ms)
  | _ => simp [bare]

theorem self_mem_parts (e : Expr) : e ∈ e.parts := by
  cases e <;> simp [parts]

theorem mem_parts_of_sequence {e m : Expr} {ms : List Expr} (listed : e.ungrouped = .sequence ms)
    (member : m ∈ ms) : m ∈ e.parts := by
  induction e using ungrouped.induct with
  | case1 inner ih => exact List.mem_cons_of_mem _ (ih listed)
  | case2 e plain =>
    rw [ungrouped.eq_2 e plain] at listed
    subst listed
    rw [parts, partsOfAll_eq_flatMap]
    exact List.mem_cons_of_mem _ (List.mem_flatMap.mpr ⟨m, member, m.self_mem_parts⟩)

mutual

theorem parts_trans {s t : Expr} (inner : t ∈ s.parts) : ∀ e : Expr, s ∈ e.parts → t ∈ e.parts
  | .group e, member => by
    rcases List.mem_cons.mp member with rfl | below
    · exact inner
    · exact List.mem_cons_of_mem _ (parts_trans inner e below)
  | .unary _ e, member => by
    rcases List.mem_cons.mp member with rfl | below
    · exact inner
    · exact List.mem_cons_of_mem _ (parts_trans inner e below)
  | .binary _ left right, member => by
    rcases List.mem_cons.mp member with rfl | below
    · exact inner
    · exact List.mem_cons_of_mem _ (List.mem_append.mpr ((List.mem_append.mp below).imp
        (parts_trans inner left) (parts_trans inner right)))
  | .sequence es, member => by
    rcases List.mem_cons.mp member with rfl | below
    · exact inner
    · exact List.mem_cons_of_mem _ (partsOfAll_trans inner es below)
  | .integer _, member | .float _, member | .boolean _, member | .string _, member
  | .moment _, member | .now .., member | .ipv4 _, member | .mac _, member | .bytes _, member
  | .field _, member | .subscript .., member | .protocol _, member | .wildcard, member =>
    List.mem_singleton.mp member ▸ inner

theorem partsOfAll_trans {s t : Expr} (inner : t ∈ s.parts) :
    ∀ es : List Expr, s ∈ partsOfAll es → t ∈ partsOfAll es
  | [], member => absurd member (by simp [partsOfAll])
  | e :: es, member => List.mem_append.mpr ((List.mem_append.mp member).imp
      (parts_trans inner e) (partsOfAll_trans inner es))

end

theorem enclosed?_eq_some {m : Expr} {net : Network} (h : m.enclosed? = some net) :
    m.bare = .ipv4 net ∧ m.ungrouped = .ipv4 net ∧ ∃ inner, m = .group inner := by
  cases m with
  | group inner =>
    simp only [enclosed?] at h
    split at h
    next found ipv4 =>
      cases h
      refine ⟨?_, ipv4, inner, rfl⟩
      rw [bare, ← bare_ungrouped, ipv4]
      rfl
    next => cases h
  | _ => cases h

end Expr

/-! ### One member and one list -/

variable {p : Packet} {now : Int64}

theorem isMember_of_ne {m : Expr} (other : ∀ net, m ≠ .ipv4 net) (v w : Value) :
    isMember v (m, w) = (v.equal? w == some true) := by
  cases m with
  | ipv4 net => exact absurd rfl (other net)
  | _ => rfl

/-- Parentheses around anything but a network make no difference to a member. -/
theorem isMember_bare {m : Expr} (outside : m.enclosed? = none) (v w : Value) :
    isMember v (m.bare, w) = isMember v (m, w) := by
  cases m with
  | group inner =>
    have plain : ∀ net, inner.ungrouped ≠ .ipv4 net := fun net ipv4 => by
      simp [Expr.enclosed?, ipv4] at outside
    have other : ∀ net, (Expr.group inner).bare ≠ .ipv4 net := fun net => by
      rw [Expr.bare, ← Expr.bare_ungrouped]
      cases shape : inner.ungrouped with
      | ipv4 net => exact absurd shape (plain net)
      | group e => exact absurd shape (inner.ungrouped_ne_group e)
      | _ => simp [Expr.bare]
    rw [isMember_of_ne other, isMember_of_ne (by simp)]
  | _ => simp only [Expr.bare] <;> rfl

/-- The value of the expression is the same without its parentheses. -/
def Keeps (p : Packet) (now : Int64) (e : Expr) : Prop :=
  evaluate p now e.bare = evaluate p now e

/-- The value tells nothing of the parentheses around networks in a list: it is null, or equal to
a member without them, or it lies in one of those networks exactly where it is the address of
one. -/
def Indifferent (p : Packet) (now : Int64) (v : Value) (ms : List Expr) : Prop :=
  v = .null ∨ (∃ m ∈ ms, m.enclosed? = none ∧ isMember v (m, evaluate p now m) = true) ∨
    ((∃ m ∈ ms, ∃ net, m.enclosed? = some net ∧ v.ipv4?.any net.contains = true) ↔
      ∃ m ∈ ms, ∃ net, m.enclosed? = some net ∧ v.equal? (evaluate p now (.ipv4 net)) = some true)

/-- A member matches as one without parentheses around a network, or as the address of one in
parentheses. -/
theorem any_isMember_iff (v : Value) (ms : List Expr) :
    (evaluateAll p now ms).any (isMember v) = true ↔
      (∃ m ∈ ms, m.enclosed? = none ∧ isMember v (m, evaluate p now m) = true) ∨
        ∃ m ∈ ms, ∃ net, m.enclosed? = some net ∧
          v.equal? (evaluate p now (.ipv4 net)) = some true := by
  have enclosed : ∀ m : Expr, ∀ net, m.enclosed? = some net →
      (isMember v (m, evaluate p now m) = true ↔
        v.equal? (evaluate p now (.ipv4 net)) = some true) := by
    intro m net h
    obtain ⟨-, ipv4, inner, rfl⟩ := Expr.enclosed?_eq_some h
    rw [isMember_of_ne (by simp), ← evaluate_ungrouped p now, ipv4, beq_iff_eq]
  rw [evaluateAll_eq_map, List.any_map, List.any_eq_true]
  constructor
  · rintro ⟨m, member, matched⟩
    cases shape : m.enclosed? with
    | none => exact .inl ⟨m, member, shape, matched⟩
    | some net => exact .inr ⟨m, member, net, shape, (enclosed m net shape).mp matched⟩
  · rintro (⟨m, member, -, matched⟩ | ⟨m, member, net, shape, matched⟩)
    · exact ⟨m, member, matched⟩
    · exact ⟨m, member, (enclosed m net shape).mpr matched⟩

/-- Without parentheses every network stands for all of its addresses. -/
theorem any_isMember_bareAll_iff {ms : List Expr} (kept : ∀ m ∈ ms, Keeps p now m) (v : Value) :
    (evaluateAll p now (Expr.bareAll ms)).any (isMember v) = true ↔
      (∃ m ∈ ms, m.enclosed? = none ∧ isMember v (m, evaluate p now m) = true) ∨
        ∃ m ∈ ms, ∃ net, m.enclosed? = some net ∧ v.ipv4?.any net.contains = true := by
  have outside : ∀ m ∈ ms, m.enclosed? = none →
      isMember v (m.bare, evaluate p now m.bare) = isMember v (m, evaluate p now m) :=
    fun m member h => by rw [isMember_bare h, kept m member]
  have enclosed : ∀ m : Expr, ∀ net, m.enclosed? = some net →
      isMember v (m.bare, evaluate p now m.bare) = v.ipv4?.any net.contains := by
    intro m net h
    rw [(Expr.enclosed?_eq_some h).1]
    rfl
  rw [evaluateAll_eq_map, Expr.bareAll_eq_map, List.map_map, List.any_map, List.any_eq_true]
  constructor
  · rintro ⟨m, member, matched⟩
    cases shape : m.enclosed? with
    | none => exact .inl ⟨m, member, shape, outside m member shape ▸ matched⟩
    | some net => exact .inr ⟨m, member, net, shape, enclosed m net shape ▸ matched⟩
  · rintro (⟨m, member, shape, matched⟩ | ⟨m, member, net, shape, matched⟩)
    · exact ⟨m, member, (outside m member shape).trans matched⟩
    · exact ⟨m, member, (enclosed m net shape).trans matched⟩

/-- A list gives a value the same answer without its parentheses exactly where the value is
indifferent to them. -/
theorem membership_bareAll_iff {ms : List Expr} (kept : ∀ m ∈ ms, Keeps p now m) (v : Value) :
    (membership v (evaluateAll p now (Expr.bareAll ms))).getD false
        = (membership v (evaluateAll p now ms)).getD false ↔ Indifferent p now v ms := by
  have shared : ∀ a b c : Prop, ((a ∨ b ↔ a ∨ c) ↔ a ∨ (b ↔ c)) := by tauto
  by_cases null : v = .null
  · simp [null, membership, Value.isNull, Indifferent]
  rw [membership_of_known null, membership_of_known null, Option.getD_some, Option.getD_some,
    Bool.eq_iff_iff, any_isMember_bareAll_iff kept, any_isMember_iff, shared, Indifferent,
    or_iff_right null]

/-! ### The operators -/

theorem equality_bare (v : Value) (right : Expr) (w : Value) :
    equality p v right.bare w = equality p v right w := by
  unfold equality
  rw [Expr.ungrouped_bare, ← Expr.bare_ungrouped]
  cases shape : right.ungrouped with
  | group inner => exact absurd shape (right.ungrouped_ne_group inner)
  | _ => rfl

theorem containment_bare (v : Value) (right : Expr) (w : Value) :
    containment v right.bare w = containment v right w := by
  unfold containment
  rw [Expr.ungrouped_bare, ← Expr.bare_ungrouped]
  cases shape : right.ungrouped with
  | group inner => exact absurd shape (right.ungrouped_ne_group inner)
  | _ => rfl

theorem keeps_listTest_iff {op : BinaryOp} (membership : op.isMembership = true)
    {left right : Expr} {ms : List Expr} (listed : right.ungrouped = .sequence ms)
    (first : Keeps p now left) (kept : ∀ m ∈ ms, Keeps p now m) :
    Keeps p now (.binary op left right) ↔ Indifferent p now (evaluate p now left) ms := by
  have listed' : right.bare.ungrouped = .sequence (Expr.bareAll ms) := by
    rw [Expr.ungrouped_bare, Expr.bare_of_sequence listed]
  rw [← membership_bareAll_iff kept, Keeps, Expr.bare, evaluate_membership membership,
    evaluate_membership membership, first, contained?_list _ listed, contained?_list _ listed',
    Value.bool.injEq]

/-- An operator keeps its value if both sides do, unless it looks into a list. -/
theorem keeps_binary {op : BinaryOp} {left right : Expr} (first : Keeps p now left)
    (second : Keeps p now right)
    (unlisted : op.isMembership = true → ∀ ms, right.ungrouped ≠ .sequence ms) :
    Keeps p now (.binary op left right) := by
  have contained : op.isMembership = true →
      contained? p now (evaluate p now left) right.bare
        = contained? p now (evaluate p now left) right := by
    intro membership
    rw [contained?_other _ (unlisted membership),
      contained?_other _ (Expr.bare_ne_sequence (unlisted membership)), containment_bare, second]
  unfold Keeps at first second ⊢
  rw [Expr.bare]
  cases op
  case equal => rw [evaluate_equal, evaluate_equal, first, second, equality_bare]
  case notEqual => rw [evaluate_notEqual, evaluate_notEqual, first, second, equality_bare]
  case member => rw [evaluate_membership rfl, evaluate_membership rfl, first, contained rfl]
  case between => rw [evaluate_membership rfl, evaluate_membership rfl, first, contained rfl]
  all_goals simp only [evaluate, first, second]

theorem keeps_sequence {ms : List Expr} (kept : ∀ m ∈ ms, Keeps p now m) :
    Keeps p now (.sequence ms) := by
  have last : ∀ e, ms.getLast? = some e → evaluate p now e.bare = evaluate p now e :=
    fun e h => kept e (List.mem_of_getLast? h)
  simp only [Keeps, Expr.bare, evaluate, evaluateAll_eq_map, Expr.bareAll_eq_map,
    List.getLast?_map]
  cases found : ms.getLast? with
  | none => rfl
  | some e => simp [last e found]

/-! ### Whole expressions -/

mutual

/-- Every part of an expression keeps its value if each list test in it meets a value that is
indifferent to parentheses. -/
theorem keeps_parts : ∀ e : Expr,
    (∀ left ms, e.TestsList left ms → Indifferent p now (evaluate p now left) ms) →
    ∀ s ∈ e.parts, Keeps p now s
  | .group inner, indifferent => by
    have inside := keeps_parts inner fun left ms ⟨op, right, part, test⟩ =>
      indifferent left ms ⟨op, right, List.mem_cons_of_mem _ part, test⟩
    refine List.forall_mem_cons.mpr ⟨?_, inside⟩
    simpa only [Keeps, Expr.bare, evaluate] using inside inner inner.self_mem_parts
  | .unary op operand, indifferent => by
    have inside := keeps_parts operand fun left ms ⟨op, right, part, test⟩ =>
      indifferent left ms ⟨op, right, List.mem_cons_of_mem _ part, test⟩
    refine List.forall_mem_cons.mpr ⟨?_, inside⟩
    have value : evaluate p now operand.bare = evaluate p now operand :=
      inside operand operand.self_mem_parts
    simp only [Keeps, Expr.bare, evaluate, value]
  | .binary op left right, indifferent => by
    have first := keeps_parts left fun left ms ⟨op, right, part, test⟩ =>
      indifferent left ms
        ⟨op, right, List.mem_cons_of_mem _ (List.mem_append_left _ part), test⟩
    have second := keeps_parts right fun left ms ⟨op, right, part, test⟩ =>
      indifferent left ms
        ⟨op, right, List.mem_cons_of_mem _ (List.mem_append_right _ part), test⟩
    refine List.forall_mem_cons.mpr ⟨?_, List.forall_mem_append.mpr ⟨first, second⟩⟩
    have whole := first left left.self_mem_parts
    by_cases test : op.isMembership = true ∧ right.IsList
    · obtain ⟨membership, ms, listed⟩ := test
      exact (keeps_listTest_iff membership listed whole fun m member =>
        second m (Expr.mem_parts_of_sequence listed member)).mpr
          (indifferent left ms ⟨op, right, Expr.self_mem_parts _, membership, listed⟩)
    · exact keeps_binary whole (second right right.self_mem_parts) fun membership ms listed =>
        test ⟨membership, ms, listed⟩
  | .sequence es, indifferent => by
    have inside := keeps_partsOfAll es fun left ms op right part test =>
      indifferent left ms ⟨op, right, List.mem_cons_of_mem _ part, test⟩
    refine List.forall_mem_cons.mpr ⟨keeps_sequence fun m member => inside m ?_, inside⟩
    rw [Expr.partsOfAll_eq_flatMap]
    exact List.mem_flatMap.mpr ⟨m, member, m.self_mem_parts⟩
  | .integer _, _ | .float _, _ | .boolean _, _ | .string _, _ | .moment _, _ | .now .., _
  | .ipv4 _, _ | .mac _, _ | .bytes _, _ | .field _, _ | .subscript .., _ | .protocol _, _
  | .wildcard, _ => fun s member => List.mem_singleton.mp member ▸ rfl

theorem keeps_partsOfAll : ∀ es : List Expr,
    (∀ left ms op right, .binary op left right ∈ Expr.partsOfAll es →
      op.isMembership = true ∧ right.ungrouped = .sequence ms →
      Indifferent p now (evaluate p now left) ms) →
    ∀ s ∈ Expr.partsOfAll es, Keeps p now s
  | [], _ => by simp [Expr.partsOfAll]
  | e :: es, indifferent => by
    have first := keeps_parts e fun left ms ⟨op, right, part, test⟩ =>
      indifferent left ms op right (List.mem_append_left _ part) test
    have rest := keeps_partsOfAll es fun left ms op right part test =>
      indifferent left ms op right (List.mem_append_right _ part) test
    exact List.forall_mem_append.mpr ⟨first, rest⟩

end

theorem keeps_parts_iff (e : Expr) : (∀ s ∈ e.parts, Keeps p now s) ↔
    ∀ left ms, e.TestsList left ms → Indifferent p now (evaluate p now left) ms := by
  refine ⟨?_, keeps_parts e⟩
  rintro kept left ms ⟨op, right, part, membership, listed⟩
  have inside : ∀ s, s ∈ left.parts ∨ s ∈ right.parts → Keeps p now s := fun s below =>
    kept s (Expr.parts_trans (List.mem_cons_of_mem _ (List.mem_append.mpr below)) e part)
  exact (keeps_listTest_iff membership listed (inside left (.inl left.self_mem_parts))
    fun m member => inside m (.inr (Expr.mem_parts_of_sequence listed member))).mp (kept _ part)

/-- A list without a network in parentheses is read alike with and without parentheses. -/
theorem indifferent_of_open {ms : List Expr} (opened : ∀ m ∈ ms, m.enclosed? = none) (v : Value) :
    Indifferent p now v ms := by
  refine .inr (.inr ⟨?_, ?_⟩)
  · rintro ⟨m, member, net, shape, -⟩
    cases (opened m member).symm.trans shape
  · rintro ⟨m, member, net, shape, -⟩
    cases (opened m member).symm.trans shape

/-- The parts of an expression keep their values without parentheses exactly where each value
that is looked for in a list is indifferent to those around its networks. Where no list has a
network in parentheses, every packet gives the expression the same value without them. -/
theorem parentheses_agree_iff (p : Packet) (now : Int64) (e : Expr) :
    ((∀ s ∈ e.parts, evaluate p now s.bare = evaluate p now s) ↔
        ∀ left ms, e.TestsList left ms → Indifferent p now (evaluate p now left) ms) ∧
      ((∀ left ms, e.TestsList left ms → ∀ m ∈ ms, m.enclosed? = none) →
        evaluate p now e.bare = evaluate p now e) := by
  refine ⟨keeps_parts_iff e, fun opened => ?_⟩
  have indifferent : ∀ left ms, e.TestsList left ms → Indifferent p now (evaluate p now left) ms :=
    fun left ms test => indifferent_of_open (opened left ms test) _
  exact keeps_parts e indifferent e e.self_mem_parts

/-- The question whether the source is a host or in a network. -/
def sampleAmong (host network : Expr) : Expr :=
  .binary .member (.group (.field "ip.src")) (.group (.sequence [host, network]))

/-- The host 1.2.3.4. -/
def sampleHost : Expr :=
  .ipv4 (.host 0x01020304)

/-- The network 10.0.0.0/8, which holds the source of the sample datagram. -/
def sampleNetwork : Expr :=
  .ipv4 (.of 0x0A000000 8)

theorem testsList_sampleAmong {host network left : Expr} {ms : List Expr}
    (plain : ∀ op l r, .binary op l r ∉ host.parts ++ network.parts)
    (h : (sampleAmong host network).TestsList left ms) :
    left = .group (.field "ip.src") ∧ ms = [host, network] := by
  obtain ⟨op, right, part, -, listed⟩ := h
  have outside := plain op left right
  simp only [List.mem_append, not_or] at outside
  simp only [sampleAmong, Expr.parts, Expr.partsOfAll, List.mem_cons, List.mem_append, outside,
    reduceCtorEq, List.not_mem_nil, Expr.binary.injEq, or_false] at part
  obtain ⟨-, rfl, rfl⟩ := part
  exact ⟨rfl, (Expr.sequence.inj listed).symm⟩

theorem parentheses_agree_source :
    evaluate sampleDatagram 0 (sampleAmong sampleHost sampleNetwork).bare
        = evaluate sampleDatagram 0 (sampleAmong sampleHost sampleNetwork) ∧
      evaluate sampleDatagram 0 (sampleAmong (.group sampleHost) sampleNetwork).bare
        = evaluate sampleDatagram 0 (sampleAmong (.group sampleHost) sampleNetwork) := by
  constructor
  · refine (parentheses_agree_iff sampleDatagram 0 _).2 fun left ms test => ?_
    obtain ⟨-, rfl⟩ := testsList_sampleAmong (by simp [sampleHost, sampleNetwork, Expr.parts]) test
    simp [sampleHost, sampleNetwork, Expr.enclosed?]
  · refine (parentheses_agree_iff sampleDatagram 0 _).1.mpr ?_ _ (Expr.self_mem_parts _)
    intro left ms test
    obtain ⟨rfl, rfl⟩ := testsList_sampleAmong (by simp [sampleHost, sampleNetwork, Expr.parts]) test
    have inside : isMember (evaluate sampleDatagram 0 (.group (.field "ip.src")))
        (sampleNetwork, evaluate sampleDatagram 0 sampleNetwork) = true := by decide +kernel
    exact .inr (.inl ⟨sampleNetwork, by simp, rfl, inside⟩)

/-- In parentheses a network among the members of a list stands for its one address. -/
theorem parentheses_hide_network :
    evaluate sampleDatagram 0 (sampleAmong sampleHost (.group sampleNetwork)) = .bool false ∧
      evaluate sampleDatagram 0 (sampleAmong sampleHost (.group sampleNetwork)).bare
        = .bool true := by
  constructor
  · rw [sampleAmong, evaluate_membership rfl]
    exact congrArg Value.bool (by decide +kernel)
  · simp only [sampleAmong, Expr.bare]
    rw [evaluate_membership rfl]
    exact congrArg Value.bool (by decide +kernel)

end PacketQuery.Language
