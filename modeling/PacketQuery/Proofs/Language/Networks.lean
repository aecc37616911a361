import PacketQuery.Frame.Assembly
import PacketQuery.Proofs.Address.Network
import PacketQuery.Proofs.Language.Comparing
import PacketQuery.Proofs.Language.Location
import PacketQuery.Proofs.Language.Rendered
/-!
Networks in conditions. A condition that compares an address field of a packet with a network is
read as written, and asks whether the address begins with the fixed bits of the network.
-/

namespace PacketQuery.Language

/-! ### Reading a condition -/

/-- The operators that ask for a network on their right side, as they are written. -/
inductive AsksNetwork : BinaryOp → Kind → String → Prop
  | equal : AsksNetwork .equal (.symbol .equal) "=="
  | notEqual : AsksNetwork .notEqual (.symbol .notEqual) "!="
  | member : AsksNetwork .member (.keyword .in_) "in"

/-- A comparison of an address of a packet with a network. -/
def networkCondition (role : Role) (operator : String) (address : UInt32) (length : Nat) :
    String :=
  "ip." ++ role.word ++ " " ++ operator ++ " " ++ Address.ipv4Text address ++ "/"
    ++ toString length

namespace AsksNetwork

variable {op : BinaryOp} {kind : Kind} {operator : String} (asks : AsksNetwork op kind operator)
include asks

theorem relation?_eq : Parser.relation? kind = some op := by
  cases asks <;> rfl

theorem apart : kind ∉ [.integer, .name, .constant] := by
  cases asks <;> decide

theorem lexes {previous : Option Char} {cs : List Char} {xs : List (Kind × String)}
    (after : Lexes (some ' ') cs xs) :
    Lexes previous (operator.toList ++ ' ' :: cs) ((kind, operator) :: xs) := by
  cases asks with
  | equal | notEqual => exact .one rfl (.blank after)
  | member =>
    have spelled : Spelled "in" (.keyword .in_) :=
      ⟨⟨'i', rfl, rfl⟩, rfl, by decide +kernel, by decide +kernel⟩
    refine .spelled spelled ?_ fun q => .blank after
    rintro d ⟨⟩
    rfl

end AsksNetwork

/-- What a condition is divided into. -/
def networkWords (role : Role) (kind : Kind) (operator : String) (address : UInt32)
    (length : Nat) : List (Kind × String) :=
  (.constant, "ip") :: (.symbol .dot, ".") :: (.name, role.word) :: (kind, operator)
    :: (octetWords address ++ [(.symbol .slash, "/"), (.integer, toString length), (.stop, "")])

/-- What these are fused to, without the end. -/
def networkTokens (role : Role) (kind : Kind) (operator : String) (address : UInt32)
    (length : Nat) : List (Kind × String) :=
  [(.field, "ip." ++ role.word), (kind, operator), (.ipv4, Address.ipv4Text address),
    (.symbol .slash, "/"), (.integer, toString length)]

theorem Role.spelled_word (role : Role) : Spelled role.word .name := by
  cases role with
  | source => exact ⟨⟨'s', rfl, rfl⟩, rfl, by decide +kernel, by decide +kernel⟩
  | destination => exact ⟨⟨'d', rfl, rfl⟩, rfl, by decide +kernel, by decide +kernel⟩

section Condition

variable {op : BinaryOp} {kind : Kind} {operator : String} (asks : AsksNetwork op kind operator)
  (role : Role) (address : UInt32) (length : Nat)
include asks

theorem lexes_network : Lexes (some ' ') (networkCondition role operator address length).toList
    (networkWords role kind operator address length) := by
  have ip : Spelled "ip" .constant :=
    ⟨⟨'i', rfl, rfl⟩, rfl, by decide +kernel, by decide +kernel⟩
  have chars : (networkCondition role operator address length).toList
      = "ip".toList ++ '.' :: (role.word.toList ++ ' ' :: (operator.toList ++ ' ' ::
        ((Address.ipv4Text address).toList ++ '/' :: ((toString length).toList ++ [])))) := by
    simp [networkCondition, String.toList_append]
  have bits : Lexes (some '/') ((toString length).toList ++ [])
      [(.integer, toString length), (.stop, "")] :=
    .numeral (Text.isNumeral_toString length) (by simp) fun _ => .nil
  have network := @lexes_address address (some ' ') _ _ (by decide) (by rintro d ⟨⟩; decide)
    fun q => @Lexes.mark q '/' _ _ .slash "/" rfl (by decide) (fun _ _ => rfl) rfl bits
  rw [chars]
  exact lexes_dotted ip role.spelled_word (asks.lexes network)

theorem fuses_network : Fuses (networkWords role kind operator address length)
    (networkTokens role kind operator address length ++ [(.stop, "")]) := by
  refine .field ⟨rfl, rfl⟩ (.skip (fuses_address address (.skip (.skip .stop (.inr ?_)) ?_)) ?_) rfl
  · rintro _ ⟨⟩
    decide
  · exact .inl (by simp)
  · exact .inl asks.apart

variable {length} in
/-- A network with at most 32 fixed bits is read as written. -/
theorem derives_network (le : length ≤ 32) (now : Int64) {us : List Token}
    (words : us.map Token.unplaced = networkTokens role kind operator address length) :
    Derives now .disjunction us
      (.binary op (.field ("ip." ++ role.word)) (.ipv4 (Network.of address length))) := by
  simp only [networkTokens, List.map_eq_cons_iff, List.map_eq_nil_iff, Token.unplaced,
    Prod.mk.injEq] at words
  obtain ⟨field, _, rfl, ⟨field', named⟩, asking, _, rfl, ⟨asking', _⟩, t, _, rfl, ⟨t', written⟩,
    slash, _, rfl, ⟨slash', _⟩, bits, _, rfl, ⟨bits', count⟩, rfl⟩ := words
  have exact : (Int64.ofNat length).toInt = length := Int64.toInt_ofNat_of_lt (by omega)
  have positive : 0 ≤ Int64.ofNat length := by
    rw [Int64.le_iff_toInt_le, exact]
    exact Int.natCast_nonneg length
  have atMost : Int64.ofNat length ≤ 32 := by
    rw [Int64.le_iff_toInt_le, exact]
    exact Int.ofNat_le.mpr le
  have counted : Parser.integerOf? bits = some (Int64.ofNat length) := by
    refine integerOf?_toString positive ?_
    rw [count, exact, Int.toNat_natCast]
  have right : Phrase.Leaf now [t, slash, bits] (.ipv4 (Network.of address length)) := by
    have leaf : Phrase.Leaf now [t, slash, bits]
        (.ipv4 (Network.of address (Int64.ofNat length).toInt.toNat)) :=
      .network t' (ipv4Of?_address address written) slash' bits' counted positive atMost
    rwa [exact, Int.toNat_natCast] at leaf
  exact derives_comparison field' named (asking' ▸ asks.relation?_eq) right

variable {length} in
theorem parse_network (le : length ≤ 32) (now : Int64) :
    (parse now (selecting ++ networkCondition role operator address length)).1
      = .ok (selection (.binary op (.field ("ip." ++ role.word))
          (.ipv4 (Network.of address length)))).referring :=
  parse_condition (lexes_network asks role address length) (fuses_network asks role address length)
    (fun _ words => derives_network asks role address le now words) (Nat.zero_le _)

end Condition

/-! ### What a condition says -/

section Evaluate

variable {p : Packet} {now : Int64} {left : Expr} {x : UInt32}
  (held : evaluate p now left = Value.ofField (.ipv4 x)) (net : Network)
include held

theorem equality_network : equality p (evaluate p now left) (.ipv4 net)
    (evaluate p now (.ipv4 net)) = some (net.contains x) := by
  have number : (evaluate p now left).int? = some (Int64.ofNat x.toNat) := by rw [held]; rfl
  simp only [equality, Expr.ungrouped, number, Option.map_some]
  rw [held, ipv4?_ofField]
  rfl

theorem evaluate_network {op : BinaryOp} {kind : Kind} {operator : String}
    (asks : AsksNetwork op kind operator) : evaluate p now (.binary op left (.ipv4 net))
      = .bool (if op = .notEqual then !net.contains x else net.contains x) := by
  have equal := equality_network held net
  cases asks with
  | equal =>
    rw [evaluate_equal, equal]
    rfl
  | notEqual =>
    rw [evaluate_notEqual, equal]
    rfl
  | member =>
    have unlisted : ∀ ms, (Expr.ipv4 net).ungrouped ≠ .sequence ms := by
      intro ms
      simp [Expr.ungrouped]
    rw [evaluate_membership rfl, contained?_other _ unlisted]
    exact congrArg (fun o => Value.bool (o.getD false)) equal

end Evaluate

/-- A condition is read, and has this truth value on a packet. -/
def Filters (now : Int64) (p : Packet) (condition : String) (b : Bool) : Prop :=
  ∃ s e, (parse now (selecting ++ condition)).1 = .ok s ∧ s.filter = some e ∧
    evaluate p now e = .bool b

theorem filters_network {p : Packet} {role : Role} {x : UInt32}
    (found : p.field? ("ip." ++ role.word) = some (.ipv4 x)) {op : BinaryOp} {kind : Kind}
    {operator : String} (asks : AsksNetwork op kind operator) (now : Int64) (address : UInt32)
    {length : Nat} (le : length ≤ 32) :
    Filters now p (networkCondition role operator address length)
      (if op = .notEqual then !decide (SharesPrefix length address x)
        else decide (SharesPrefix length address x)) := by
  have inside : (Network.of address length).contains x
      = decide (SharesPrefix length address x) := by
    rw [Bool.eq_iff_iff, decide_eq_true_eq, Network.contains_iff, Nat.min_eq_left le]
  have held : evaluate p now (.field ("ip." ++ role.word)) = Value.ofField (.ipv4 x) := by
    rw [evaluate, found]
    rfl
  refine ⟨_, _, parse_network asks role address le now, rfl, ?_⟩
  rw [evaluate_network held _ asks, inside]

/-- A network with any number of fixed bits is the addresses that share them, two networks are
nested or apart, and on every packet with an address of a role the conditions on it ask for these
bits. -/
theorem networks_are_prefixes :
    (∀ (address x : UInt32) (length : Nat),
      (Network.of address length).contains x = true ↔ SharesPrefix (min length 32) address x) ∧
    (∀ (a b : UInt32) (length length' : Nat),
      (∀ x, (Network.of a length).contains x = true → (Network.of b length').contains x = true) ∨
      (∀ x, (Network.of b length').contains x = true → (Network.of a length).contains x = true) ∨
      ∀ x, ¬ ((Network.of a length).contains x = true ∧
        (Network.of b length').contains x = true)) ∧
    ∀ (set : List Protocol) (linkType : UInt16) (frame : Bytes) (capture : Capture) (role : Role)
      (found : FieldValue),
      (Packet.decode set linkType frame capture).field? ("ip." ++ role.word) = some found →
      ∃ x, found = .ipv4 x ∧ ∀ (now : Int64) (address : UInt32) (length : Nat), length ≤ 32 →
        Filters now (.decode set linkType frame capture) (networkCondition role "==" address length)
          (decide (SharesPrefix length address x)) ∧
        Filters now (.decode set linkType frame capture) (networkCondition role "in" address length)
          (decide (SharesPrefix length address x)) ∧
        Filters now (.decode set linkType frame capture) (networkCondition role "!=" address length)
          (!decide (SharesPrefix length address x)) := by
  refine ⟨Network.contains_iff, Network.nested_or_disjoint, ?_⟩
  intro set linkType frame capture role found read
  have named : Role.ofField? ("ip." ++ role.word) = some role := by cases role <;> decide
  obtain rfl := eq_address_of_field? named read
  refine ⟨_, rfl, fun now address length le => ⟨?_, ?_, ?_⟩⟩
  · exact filters_network read .equal now address le
  · exact filters_network read .member now address le
  · exact filters_network read .notEqual now address le

/-- The datagram is from 10.0.0.2, which differs from 10.0.0.1 in the last bit but one. -/
theorem networks_are_prefixes_source :
    let p := Packet.decode Protocol.all Protocol.ethernetLink
      (Assembly.udpFrame [10, 0, 0, 2] [10, 0, 0, 3] 1000 2000 []) ⟨1, 24, 0, 42, 42⟩
    p.field? ("ip." ++ Role.source.word) = some (.ipv4 0x0A000002) ∧
      Filters 0 p "ip.src == 10.200.3.4/8" true ∧ Filters 0 p "ip.src in 10.0.0.1/31" false ∧
      Filters 0 p "ip.src != 10.0.0.1/31" true := by
  intro p
  have read : p.field? ("ip." ++ Role.source.word) = some (.ipv4 0x0A000002) := by decide +kernel
  obtain ⟨x, same, filters⟩ := networks_are_prefixes.2.2 _ _ _ _ Role.source _ read
  cases same
  have eight := filters 0 0x0AC80304 8 (by decide)
  have most := filters 0 0x0A000001 31 (by decide)
  have texts : networkCondition .source "==" 0x0AC80304 8 = "ip.src == 10.200.3.4/8" ∧
      networkCondition .source "in" 0x0A000001 31 = "ip.src in 10.0.0.1/31" ∧
      networkCondition .source "!=" 0x0A000001 31 = "ip.src != 10.0.0.1/31" := by
    decide +kernel
  obtain ⟨equal, member, notEqual⟩ := texts
  rw [equal] at eight
  rw [member, notEqual] at most
  exact ⟨read, eight.1, most.2.1, most.2.2⟩

end PacketQuery.Language
