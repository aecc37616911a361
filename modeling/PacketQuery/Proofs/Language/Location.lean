import PacketQuery.Proofs.Catalog.Agreement
import PacketQuery.Proofs.Language.Demand
import PacketQuery.Proofs.Language.Mention
/-!
Where the addresses of an accepted packet lie. A comparison of an address field with a network
that holds puts the packet's address of that role into the network.
-/

namespace PacketQuery

/-- The IPv4 address of a packet for a role, zero where it has none. -/
def Packet.address (p : Packet) : Language.Role → UInt32
  | .source => ((p.field? "ip.src").bind FieldValue.ipv4?).getD 0
  | .destination => ((p.field? "ip.dst").bind FieldValue.ipv4?).getD 0

namespace Language

open Catalog (isNamed_congr isNamed_ip field?_eq_bind)

/-- The header field with the address of a role. -/
def Role.word : Role → String
  | source => "src"
  | destination => "dst"

/-- The fields of a role are those of its word in a layer of either name. -/
theorem Role.ofField?_iff_parts {name : String} {role : Role} :
    ofField? name = some role ↔ ∃ layer field, Text.cut '.' name = some (layer, field) ∧
      (Text.same layer "ip" = true ∨ Text.same layer "ipv4" = true) ∧
      Text.same field role.word = true := by
  unfold ofField?
  constructor
  · intro h
    split at h
    next => cases h
    next layer field parts =>
      split at h
      next named =>
        refine ⟨layer, field, parts, by simpa using named, ?_⟩
        split at h
        next src =>
          cases h
          exact src
        next =>
          split at h
          next dst =>
            cases h
            exact dst
          next => cases h
      next => cases h
  · rintro ⟨layer, field, parts, named, word⟩
    rw [parts]
    dsimp only
    rw [if_pos (by simpa using named)]
    cases role with
    | source => exact if_pos word
    | destination =>
      have other : ¬ Text.same field "src" = true := by
        rw [Text.same_left_congr word]
        decide
      rw [if_neg other]
      exact if_pos word

theorem isNamed_ipv4 (r : Protocol) : r.isNamed "ipv4" = (r == .ipv4) := by
  cases r <;> decide

/-- A field of a role reads the IPv4 header by the given spelling of the field's name. -/
theorem field?_of_role (p : Packet) {name : String} {role : Role}
    (h : Role.ofField? name = some role) :
    ∃ field, Text.same field role.word = true ∧
      p.field? name = (p.layers.find? (·.protocol == .ipv4)).bind (·.reading.field? field) := by
  obtain ⟨layer, field, parts, named, word⟩ := Role.ofField?_iff_parts.mp h
  refine ⟨field, word, field?_eq_bind p parts ?_ fun r => ?_⟩
  · rcases named with ip | ipv4
    · rw [Text.same_right_congr ip]
      decide
    · rw [Text.same_right_congr ipv4]
      decide
  · rcases named with ip | ipv4
    · rw [isNamed_congr ip, isNamed_ip]
    · rw [isNamed_congr ipv4, isNamed_ipv4]

theorem address_eq_bind (p : Packet) (role : Role) : p.address role =
    (((p.layers.find? (·.protocol == .ipv4)).bind (·.reading.field? role.word)).bind
      FieldValue.ipv4?).getD 0 := by
  cases role with
  | source =>
    rw [Packet.address, field?_eq_bind p (show Text.cut '.' "ip.src" = some ("ip", "src") by
      decide) (by decide) isNamed_ip]
    rfl
  | destination =>
    rw [Packet.address, field?_eq_bind p (show Text.cut '.' "ip.dst" = some ("ip", "dst") by
      decide) (by decide) isNamed_ip]
    rfl

theorem eq_word_of_mem {role : Role} {field : String} (member : field ∈ Protocol.ipv4.fieldNames)
    (word : Text.same field role.word = true) : field = role.word := by
  revert field
  cases role <;> decide

variable {set : List Protocol} {linkType : UInt16} {frame : Bytes} {capture : Capture}

/-- A field of a role is missing or has the packet's address of the role. -/
theorem eq_address_of_field? {name : String} {role : Role} (h : Role.ofField? name = some role)
    {value : FieldValue}
    (found : (Packet.decode set linkType frame capture).field? name = some value) :
    value = .ipv4 ((Packet.decode set linkType frame capture).address role) := by
  obtain ⟨field, word, read⟩ := field?_of_role (.decode set linkType frame capture) h
  rw [read] at found
  obtain ⟨layer, first, found⟩ := Option.bind_eq_some_iff.mp found
  have chain := Layer.ofFrame_chain set linkType frame
  have member := List.mem_of_find?_eq_some first
  have ipv4 : layer.protocol = .ipv4 := by simpa using List.find?_some first
  obtain ⟨data, context, reading⟩ := chain.reading_eq layer member
  rw [ipv4] at reading
  have listed := (Protocol.ipv4.tells_read data context).mem_fieldNames (reading ▸ found)
  have spelled := eq_word_of_mem listed word
  subst spelled
  have shape : ∃ address, value = .ipv4 address := by
    rcases chain.ipv4_fields member ipv4 with ⟨source, destination, src, dst⟩ | missing
    · cases role with
      | source => exact ⟨source, Option.some.inj (found.symm.trans src)⟩
      | destination => exact ⟨destination, Option.some.inj (found.symm.trans dst)⟩
    · cases (missing _).symm.trans found
  obtain ⟨address, rfl⟩ := shape
  rw [address_eq_bind, first]
  simp only [Option.bind_some, found, FieldValue.ipv4?, Option.getD_some]

/-! ### Networks -/

theorem ipv4?_ofField (address : UInt32) :
    (Value.ofField (.ipv4 address)).ipv4? = some address := by
  have small := address.toNat_lt
  have exact : (Int64.ofNat address.toNat).toInt = address.toNat :=
    Int64.toInt_ofNat_of_lt (by omega)
  simp only [Value.ofField, Value.ipv4?, Value.int?, Option.bind_some, exact]
  rw [if_pos ⟨by omega, by exact_mod_cast small⟩]
  simp

/-- A value in a network is the packet's address. -/
theorem contains_of_field {name : String} {role : Role} (h : Role.ofField? name = some role)
    {net : Network} {now : Int64}
    (inside : (evaluate (.decode set linkType frame capture) now (.field name)).ipv4?.any
      net.contains = true) :
    net.contains ((Packet.decode set linkType frame capture).address role) = true := by
  cases found : (Packet.decode set linkType frame capture).field? name with
  | none => simp [evaluate, found, Value.ipv4?, Value.int?] at inside
  | some value =>
    simpa [evaluate, found, eq_address_of_field? h found, ipv4?_ofField] using inside

namespace Expr

/-- The expression compares with networks of `nets` alone: it is one, or a list of them. -/
def Lists (nets : List Network) : Expr → Prop
  | .ipv4 net => net ∈ nets
  | .sequence members => ∀ m ∈ members, ∃ net ∈ nets, m = .ipv4 net
  | _ => False

/-- Where the expression holds, the packet's address of the role lies in one of the networks. -/
def Locates (role : Role) (nets : List Network) : Expr → Prop
  | .group inner => Locates role nets inner
  | .binary .and left right => Locates role nets left ∨ Locates role nets right
  | .binary .or left right => Locates role nets left ∧ Locates role nets right
  | .binary .equal (.field name) right =>
    Role.ofField? name = some role ∧ ∃ net ∈ nets, right.ungrouped = .ipv4 net
  | .binary .member (.field name) right | .binary .between (.field name) right =>
    Role.ofField? name = some role ∧ right.ungrouped.Lists nets
  | _ => False

end Expr

theorem accepts_equal (p : Packet) (now : Int64) (left right : Expr) :
    accepts p now (.binary .equal left right)
      = (equality p (evaluate p now left) right (evaluate p now right)).getD false := by
  simp only [accepts, evaluate, isTruthy_bool]

theorem inside_of_equality {p : Packet} {left value : Value} {right : Expr} {net : Network}
    (ipv4 : right.ungrouped = .ipv4 net) (h : (equality p left right value).getD false = true) :
    left.ipv4?.any net.contains = true := by
  rw [equality, ipv4] at h
  cases number : left.int? with
  | none => simp [number] at h
  | some n => simpa [number] using h

theorem inside_of_containment {left value : Value} {right : Expr} {net : Network}
    (ipv4 : right.ungrouped = .ipv4 net) (h : (containment left right value).getD false = true) :
    left.ipv4?.any net.contains = true := by
  simp only [containment, ipv4] at h
  cases number : left.int? with
  | none => simp [number] at h
  | some n => simpa [number] using h

/-- A member of a list of networks lies in one of them. -/
theorem inside_of_member {p : Packet} {now : Int64} {left right : Expr} {nets : List Network}
    {op : BinaryOp} (membership : op.isMembership = true)
    (lists : right.ungrouped.Lists nets) (h : accepts p now (.binary op left right) = true) :
    ∃ net ∈ nets, (evaluate p now left).ipv4?.any net.contains = true := by
  rw [accepts, evaluate_membership membership, isTruthy_bool] at h
  unfold Expr.Lists at lists
  split at lists
  next net ipv4 =>
    rw [contained?_other _ (by simp [ipv4])] at h
    exact ⟨net, lists, inside_of_containment ipv4 h⟩
  next ms sequence =>
    rw [contained?_list _ sequence, Language.membership, evaluateAll_eq_map] at h
    split at h
    next => cases h
    next =>
      obtain ⟨entry, among, equal⟩ := List.any_eq_true.mp h
      obtain ⟨m, member, rfl⟩ := List.mem_map.mp among
      obtain ⟨net, listed, rfl⟩ := lists m member
      exact ⟨net, listed, equal⟩
  next => exact absurd lists id

/-- An accepted packet lies in one of the networks that the filter locates it in. -/
theorem exists_contains_of_locates {now : Int64} {e : Expr} {role : Role} {nets : List Network}
    (locates : e.Locates role nets)
    (h : accepts (.decode set linkType frame capture) now e = true) :
    ∃ net ∈ nets,
      net.contains ((Packet.decode set linkType frame capture).address role) = true := by
  induction e using Expr.Locates.induct with
  | case1 inner ih => exact ih locates h
  | case2 left right ihLeft ihRight =>
    simp only [accepts, evaluate, isTruthy_bool, Bool.and_eq_true] at h
    rcases locates with first | second
    · exact ihLeft first h.1
    · exact ihRight second h.2
  | case3 left right ihLeft ihRight =>
    simp only [accepts, evaluate, isTruthy_bool, Bool.or_eq_true] at h
    rcases h with first | second
    · exact ihLeft locates.1 first
    · exact ihRight locates.2 second
  | case4 name right =>
    obtain ⟨read, net, listed, ipv4⟩ := locates
    rw [accepts_equal] at h
    exact ⟨net, listed, contains_of_field read (inside_of_equality ipv4 h)⟩
  | case5 name right =>
    obtain ⟨net, listed, inside⟩ := inside_of_member rfl locates.2 h
    exact ⟨net, listed, contains_of_field locates.1 inside⟩
  | case6 name right =>
    obtain ⟨net, listed, inside⟩ := inside_of_member rfl locates.2 h
    exact ⟨net, listed, contains_of_field locates.1 inside⟩
  | case7 => exact absurd locates (by simp_all [Expr.Locates])

end Language

end PacketQuery
