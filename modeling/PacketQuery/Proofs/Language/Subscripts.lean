import PacketQuery.Proofs.Frame.Dissection
import PacketQuery.Proofs.Frame.Wire
import PacketQuery.Proofs.Language.Comparing
/-!
Bytes of a layer and its decoded fields are two ways to the same data. A subscript at the place of
a field equals the field, whichever of the two is on the left and by whichever names of the layer
they are written, and a subscript never reaches past the frame.
-/

namespace PacketQuery

/-- The bytes that write a number are equal to it. -/
theorem Written.equal? {data : Bytes} {offset length : Nat} {v : FieldValue}
    (written : Written data offset length v) (some_ : 1 ≤ length) (short : length ≤ 8) :
    (Value.bytes (Bytes.slice data offset length)).equal? (.ofField v) = some true ∧
      (Value.ofField v).equal? (.bytes (Bytes.slice data offset length)) = some true := by
  have inside := written.inside
  have fits : 1 ≤ (Bytes.slice data offset length).length ∧
      (Bytes.slice data offset length).length ≤ 8 := by
    rw [Bytes.length_slice]
    omega
  rw [written.value]
  constructor
  · simp [Value.equal?, Value.isNumeric, Value.equalNumbers?, Value.isFloat, Value.int?, fits]
  · simp [Value.equal?, Value.isNumeric, Value.equalNumbers?, Value.isFloat, Value.int?, fits]

namespace Packet

/-- Bytes counted from a layer that is given by any of its names. -/
theorem bytes?_named (p : Packet) {q : Protocol} {word : String} (named : q.isNamed word = true)
    (offset length : Nat) :
    p.bytes? word offset length = (p.layers.find? (·.protocol == q)).bind fun layer =>
      Bytes.slice? p.frame (layer.start + offset) length := by
  obtain ⟨others, _, proper⟩ := Protocol.word_of_isNamed named
  have payload : Text.same "payload" word = false := by
    by_contra same
    rw [Bool.not_eq_false] at same
    rw [← Catalog.isNamed_congr same] at named
    revert named
    cases q <;> decide
  simp only [bytes?, baseStart?, proper, payload, layer?, Layer.isNamed, others,
    Bool.false_eq_true, if_false]
  cases p.layers.find? (·.protocol == q) <;> rfl

/-- Bytes that are given lie in the frame, as many as were asked for. -/
theorem bytes?_inside {p : Packet} {base : String} {offset length : Nat} {bs : Bytes}
    (given : p.bytes? base offset length = some bs) :
    bs.length = length ∧ ∃ start, p.baseStart? base = some start ∧
      start + offset + length ≤ p.frame.length ∧
      bs = Bytes.slice p.frame (start + offset) length := by
  obtain ⟨start, found, cut⟩ := Option.bind_eq_some_iff.mp given
  unfold Bytes.slice? at cut
  split at cut
  next inside =>
    cases cut
    refine ⟨?_, start, found, inside, rfl⟩
    rw [Bytes.length_slice]
    omega
  next => cases cut

end Packet

namespace Language

/-- A subscript at the place of a field of the same layer equals the field. Every layer, also one
that no name reaches, has its fields at their places in the frame, and bytes that are given lie in
the frame and are as many as asked for. -/
theorem subscript_equals_field (set : List Protocol) (linkType : UInt16) (frame : Bytes)
    (capture : Capture) (now : Int64) :
    let p := Packet.decode set linkType frame capture
    (∀ q : Protocol, ∀ w ∈ q.wirePlaces, ∀ base word : String,
      q.isNamed base = true → q.isNamed word = true →
      (q = .dns → ∃ udp ∈ p.layers, udp.protocol = .udp) →
      p.field? (word ++ "." ++ w.field) ≠ none →
      let bytes := Expr.subscript base w.offset w.length
      let field := Expr.field (word ++ "." ++ w.field)
      evaluate p now (.binary .equal bytes field) = .bool true ∧
        evaluate p now (.binary .equal field bytes) = .bool true) ∧
    (∀ layer ∈ p.layers, (layer.protocol = .dns → ∃ udp ∈ p.layers, udp.protocol = .udp) →
      ∀ w ∈ layer.protocol.wirePlaces, ∀ v, layer.reading.field? w.field = some v →
      ∃ bs, Bytes.slice? frame (layer.start + w.offset) w.length = some bs ∧
        (Value.bytes bs).equal? (.ofField v) = some true) ∧
    ∀ base offset length bs, p.bytes? base offset length = some bs →
      bs.length = length ∧ ∃ start, p.baseStart? base = some start ∧
        start + offset + length ≤ frame.length ∧
        bs = Bytes.slice frame (start + offset) length := by
  intro p
  refine ⟨?_, ?_, fun base offset length bs => Packet.bytes?_inside⟩
  · intro q w listed base word namesBase namesWord overUdp known bytes field
    obtain ⟨v, found⟩ := Option.ne_none_iff_exists'.mp known
    -- both look at the first layer of the protocol
    rw [p.field?_dotted namesWord] at found
    obtain ⟨layer, first, read⟩ := Option.bind_eq_some_iff.mp found
    have isQ : layer.protocol = q := by simpa using List.find?_some first
    subst isQ
    have written := Layer.written_ofFrame (List.mem_of_find?_eq_some first) overUdp listed read
    obtain ⟨some_, short⟩ := Protocol.length_wirePlaces listed
    obtain ⟨left, right⟩ := written.equal? some_ short
    have bytesValue : evaluate p now bytes
        = .bytes (Bytes.slice frame (layer.start + w.offset) w.length) := by
      have cut : Bytes.slice? p.frame (layer.start + w.offset) w.length
          = some (Bytes.slice frame (layer.start + w.offset) w.length) := if_pos written.inside
      simp only [bytes, evaluate, p.bytes?_named namesBase, first, Option.bind_some, cut]
      rfl
    have fieldValue : evaluate p now field = .ofField v := by
      simp only [field, evaluate, p.field?_dotted namesWord, found]
      rfl
    constructor
    · rw [evaluate_equal, bytesValue, fieldValue]
      exact congrArg (fun truth => Value.bool (truth.getD false)) left
    · rw [evaluate_equal, bytesValue, fieldValue]
      exact congrArg (fun truth => Value.bool (truth.getD false)) right
  · intro layer member overUdp w listed v read
    have written := Layer.written_ofFrame member overUdp listed read
    obtain ⟨some_, short⟩ := Protocol.length_wirePlaces listed
    exact ⟨_, if_pos written.inside, (written.equal? some_ short).1⟩

/-- A tagged frame with options in its IPv4 header and a DNS message over UDP. -/
def sampleTaggedDns : Bytes :=
  [1, 2, 3, 4, 5, 6, 7, 8, 9, 10, 11, 12, 0x81, 0, 0, 5, 8, 0]
    ++ [0x46, 0, 0, 44, 0x12, 0x34, 0, 0, 64, 17, 0xBE, 0xEF, 10, 0, 0, 1, 8, 8, 8, 8, 1, 1, 1, 1]
    ++ [0x0B, 0xB8, 0, 53, 0, 20, 0, 0] ++ [0xAB, 0xCD, 1, 0, 0, 0, 0, 0, 0, 0, 0, 0]

theorem subscript_equals_field_dns :
    let p := Packet.decode Protocol.all 1 sampleTaggedDns ⟨1, 24, 0, 62, 62⟩
    (p.layers.map (·.protocol) = [.ethernet, .vlan, .ipv4, .udp, .dns] ∧
      p.field? "IPv4.dst" = some (.ipv4 0x08080808) ∧ p.field? "dns.id" = some (.u16 0xABCD)) ∧
    evaluate p 0 (.binary .equal (.subscript "ip" 16 4) (.field "IPv4.dst")) = .bool true ∧
    evaluate p 0 (.binary .equal (.field "dns.id") (.subscript "DNS" 0 2)) = .bool true ∧
    p.bytes? "dns" 0 12 = some (sampleTaggedDns.drop 50) ∧ p.bytes? "dns" 0 13 = none := by
  intro p
  have protocols : p.layers.map (·.protocol) = [.ethernet, .vlan, .ipv4, .udp, .dns] := by
    decide +kernel
  have destination : p.field? "IPv4.dst" = some (.ipv4 0x08080808) := by decide +kernel
  have id : p.field? "dns.id" = some (.u16 0xABCD) := by decide +kernel
  have overUdp : ∃ udp ∈ p.layers, udp.protocol = .udp := by
    apply List.mem_map.mp
    rw [protocols]
    simp
  obtain ⟨names, _, _⟩ :=
    subscript_equals_field Protocol.all 1 sampleTaggedDns ⟨1, 24, 0, 62, 62⟩ 0
  refine ⟨⟨protocols, destination, id⟩, ?_, ?_, by decide +kernel, by decide +kernel⟩
  · exact (names .ipv4 ⟨"dst", 16, 4⟩ (by decide) "ip" "IPv4" (by decide) (by decide) nofun
      (Option.ne_none_iff_exists'.mpr ⟨_, destination⟩)).1
  · exact (names .dns ⟨"id", 0, 2⟩ (by decide) "DNS" "dns" (by decide) (by decide)
      (fun _ => overUdp) (Option.ne_none_iff_exists'.mpr ⟨_, id⟩)).2

end Language

end PacketQuery
