import PacketQuery.Proofs.Search.Prefilter
/-!
Conjunctive filters lose nothing to the catalogue. Each condition that holds brings the layer that
it names, and puts the packet's address into the network that it names for that address.
-/

namespace PacketQuery.Language

/-- A number, a text, a moment, a hardware address or a byte string. -/
def Expr.isScalar : Expr → Bool
  | integer _ | float _ | string _ | moment _ | mac _ | bytes _ => true
  | _ => false

/-- An equality or a comparison of order. -/
def BinaryOp.compares : BinaryOp → Bool
  | equal | less | atMost | greater | atLeast => true
  | _ => false

/-- One condition on a packet: a protocol, a dotted field compared with a scalar, or one that is
asked to lie in a network. -/
def Expr.isCondition : Expr → Bool
  | protocol _ => true
  | binary op (field name) (ipv4 _) =>
    (Text.cut '.' name).isSome && (op == .equal || op == .member)
  | binary op (field name) literal =>
    (Text.cut '.' name).isSome && op.compares && literal.isScalar
  | _ => false

/-- Conditions joined by `and`. -/
def Expr.isConjunction : Expr → Bool
  | binary .and left right => left.isConjunction && right.isConjunction
  | e => e.isCondition

theorem Expr.mentions_of_isScalar {e : Expr} (h : e.isScalar = true) : e.mentions = [] := by
  cases e <;> simp_all [Expr.isScalar, Expr.mentions]

theorem needs_of_names {name word : String} {i : Nat}
    (named : (Mention.field name).word? = some word) (bit : Catalog.position? word = some i) :
    (Expr.field name).Needs i := by
  obtain ⟨⟨layer, field⟩, parts, rfl⟩ := Option.map_eq_some_iff.mp named
  exact ⟨layer, field, parts, (Catalog.position?_congr (Text.same_upper layer)).symm.trans bit⟩

/-- A comparison demands what its field needs. -/
theorem demands_of_compares {op : BinaryOp} (compares : op.compares = true) {left literal : Expr}
    (scalar : literal.isScalar = true) {i : Nat} (needs : left.Needs i) :
    (Expr.binary op left literal).Demands i := by
  cases op <;> simp only [BinaryOp.compares, Bool.false_eq_true] at compares
  case equal =>
    cases literal <;> simp only [Expr.isScalar, Bool.false_eq_true] at scalar <;> exact .inl needs
  all_goals exact .inl needs

/-- A condition demands the bit of the protocol that it names. -/
theorem demands_of_isCondition {e : Expr} (h : e.isCondition = true) {word : String} {i : Nat}
    (named : e.Names word) (bit : Catalog.position? word = some i) : e.Demands i := by
  obtain ⟨m, member, worded⟩ := named
  unfold Expr.isCondition at h
  split at h
  next name =>
    simp only [Expr.mentions, List.mem_singleton] at member
    subst member
    cases worded
    exact (Catalog.position?_congr (Text.same_upper name)).symm.trans bit
  next op name network =>
    have needs : (Expr.field name).Needs i := by
      rcases List.mem_cons.mp (show m ∈ [Mention.field name, .network network] from member) with
        rfl | other
      · exact needs_of_names worded bit
      · rw [List.mem_singleton.mp other] at worded
        cases worded
    have asks : op = .equal ∨ op = .member := by simp_all
    rcases asks with rfl | rfl
    · exact .inl needs
    · exact needs
  next op name literal _ =>
    simp only [Bool.and_eq_true] at h
    simp only [Expr.mentions, Expr.mentions_of_isScalar h.2, List.append_nil,
      List.mem_singleton] at member
    subst member
    exact demands_of_compares h.1.2 h.2 (needs_of_names worded bit)
  next => cases h

/-- A conjunction demands the bits of all protocols that it names. -/
theorem demands_of_isConjunction {e : Expr} (h : e.isConjunction = true) {word : String} {i : Nat}
    (named : e.Names word) (bit : Catalog.position? word = some i) : e.Demands i := by
  induction e using Expr.isConjunction.induct with
  | case1 left right ihLeft ihRight =>
    simp only [Expr.isConjunction, Bool.and_eq_true] at h
    obtain ⟨m, member, worded⟩ := named
    rw [Expr.mentions] at member
    rcases List.mem_append.mp member with first | second
    · exact .inl (ihLeft h.1 ⟨m, first, worded⟩)
    · exact .inr (ihRight h.2 ⟨m, second, worded⟩)
  | case2 e single =>
    rw [Expr.isConjunction.eq_2 e single] at h
    exact demands_of_isCondition h named bit

variable {set : List Protocol} {linkType : UInt16} {frame : Bytes} {capture : Capture}
variable {now : Int64} {role : Role}

/-- The mentions locate nothing but networks with the packet's address, whatever follows. -/
def LocatesOwn (p : Packet) (role : Role) (ms : List Mention) : Prop :=
  ∀ (current : Option Role) (rest : List Mention), ∃ own next,
    Mention.located role current (ms ++ rest) = own ++ Mention.located role next rest ∧
      ∀ net ∈ own, net.contains (p.address role) = true

theorem locatesOwn_append {p : Packet} {ms ns : List Mention} (first : LocatesOwn p role ms)
    (second : LocatesOwn p role ns) : LocatesOwn p role (ms ++ ns) := by
  intro current rest
  obtain ⟨own, between, before, inside⟩ := first current (ns ++ rest)
  obtain ⟨more, next, after, also⟩ := second between rest
  refine ⟨own ++ more, next, ?_, ?_⟩
  · rw [List.append_assoc, before, after, List.append_assoc]
  · intro net member
    exact (List.mem_append.mp member).elim (inside net) (also net)

/-- A condition that holds locates nothing but networks with the packet's address. -/
theorem locatesOwn_of_isCondition {e : Expr} (h : e.isCondition = true)
    (accepted : accepts (.decode set linkType frame capture) now e = true) :
    LocatesOwn (.decode set linkType frame capture) role e.mentions := by
  intro current rest
  unfold Expr.isCondition at h
  split at h
  next name => exact ⟨[], current, rfl, by simp⟩
  next op name network =>
    have dotted : (Text.cut '.' name).isSome = true := by simp_all
    have asks : op = .equal ∨ op = .member := by simp_all
    by_cases read : Role.ofField? name = some role
    · refine ⟨[network], Role.ofField? name, ?_, ?_⟩
      · simp [Expr.mentions, Mention.located, dotted, read]
      · intro net member
        have locates : (Expr.binary op (.field name) (.ipv4 network)).Locates role [network] := by
          rcases asks with rfl | rfl
          · exact ⟨read, network, List.mem_singleton_self _, rfl⟩
          · exact ⟨read, List.mem_singleton_self _⟩
        obtain ⟨found, listed, inside⟩ := exists_contains_of_locates locates accepted
        rwa [List.mem_singleton.mp member, ← List.mem_singleton.mp listed]
    -- A field of the other role, or of none, takes the network away from this role.
    · refine ⟨[], Role.ofField? name, ?_, by simp⟩
      simp [Expr.mentions, Mention.located, dotted, read]
  next op name literal _ =>
    simp only [Bool.and_eq_true] at h
    refine ⟨[], Role.ofField? name, ?_, by simp⟩
    simp [Expr.mentions, Expr.mentions_of_isScalar h.2, Mention.located, h.1.1]
  next => cases h

theorem locatesOwn_of_isConjunction {e : Expr} (h : e.isConjunction = true)
    (accepted : accepts (.decode set linkType frame capture) now e = true) :
    LocatesOwn (.decode set linkType frame capture) role e.mentions := by
  induction e using Expr.isConjunction.induct with
  | case1 left right ihLeft ihRight =>
    simp only [Expr.isConjunction, Bool.and_eq_true] at h
    simp only [accepts, evaluate, isTruthy_bool, Bool.and_eq_true] at accepted
    rw [Expr.mentions]
    exact locatesOwn_append (ihLeft h.1 accepted.1) (ihRight h.2 accepted.2)
  | case2 e single =>
    rw [Expr.isConjunction.eq_2 e single] at h
    exact locatesOwn_of_isCondition h accepted

end PacketQuery.Language

namespace PacketQuery.Search

open Catalog (Entry Mask)
open PacketQuery.Language

/-- A packet that a conjunction accepts is offered by the scan of the catalogue. -/
theorem conjunction_prefilter {now : Int64} {text : String} {s : Statement} {f : Expr}
    (h : Selects now text s f) (conjunction : f.isConjunction = true) (linkType : UInt16)
    (frame : Bytes) (capture recorded : Capture) (moment : Int64)
    (accepted : accepts (.decode Protocol.all linkType frame capture) moment f = true) :
    let e := Entry.ofPacket (.decode Protocol.lower linkType frame recorded)
    e.mask.includes (.ofNames s.protocols) = true ∧
      s.networks.admits e.source e.destination = true := by
  intro e
  constructor
  · exact includes_of_demands linkType frame capture recorded h
      (fun _ _ => demands_of_isConjunction conjunction) accepted
  · refine (admits_iff linkType frame capture recorded h).mpr fun role => ?_
    have owns : LocatesOwn (.decode Protocol.all linkType frame capture) role f.mentions :=
      locatesOwn_of_isConjunction conjunction accepted
    obtain ⟨own, next, all, inside⟩ := owns none []
    rw [List.append_nil, Mention.located, List.append_nil] at all
    have named : f.networksFor role = own := all
    rw [named]
    cases own with
    | nil => exact .inl rfl
    | cons net nets => exact .inr ⟨net, List.mem_cons_self, inside net List.mem_cons_self⟩

theorem conjunction_prefilter_udp : ∃ s f,
    Selects 0 "select * from a where udp and ip.src == 10.0.0.0/8 and udp.dport >= 1024" s f ∧
      f.isConjunction = true ∧ accepts samplePacket 0 f = true ∧
      sampleEntry.mask.includes (.ofNames s.protocols) = true ∧
      s.networks.admits sampleEntry.source sampleEntry.destination = true := by
  obtain ⟨s, f, selects, holds⟩ := exists_selects 0
    "select * from a where udp and ip.src == 10.0.0.0/8 and udp.dport >= 1024"
    (fun _ f => f.isConjunction && accepts samplePacket 0 f) (by decide +kernel)
  obtain ⟨conjunction, accepted⟩ := Bool.and_eq_true_iff.mp holds
  exact ⟨s, f, selects, conjunction, accepted, conjunction_prefilter selects conjunction
    Protocol.ethernetLink sampleFrame sampleCapture sampleCapture 0 accepted⟩

end PacketQuery.Search
