import Mathlib.Computability.RegularExpressions
import Mathlib.Data.List.Chain
import PacketQuery.Proofs.Frame.Chain
/-!
The decoding of a frame as a relation that does not count its steps: every header that is read to
its end takes a byte at least, so the decoding always ends, and in one way. The layers follow a
regular language of protocols and lie one behind the other in the frame.
-/

namespace PacketQuery

/-! ### Decoding without a count of steps -/

/-- The layers of `data`, which starts at position `start` of the frame: none where the data ends
or no protocol claims it, one where the header is not read to its end, and otherwise that of the
header before those of what it gives back. -/
inductive Decodes (set : List Protocol) : Context → (start : Nat) → Bytes → List Layer → Prop
  | done (context : Context) (start : Nat) : Decodes set context start [] []
  | unclaimed {context : Context} (start : Nat) (data : Bytes)
      (claimed : Protocol.next? set context = none) : Decodes set context start data []
  | broken {context : Context} {start : Nat} {data : Bytes} {p : Protocol} (held : data ≠ [])
      (claimed : Protocol.next? set context = some p)
      (incomplete : (p.read data context).isComplete = false) :
      Decodes set context start data [.readAt p context start data]
  | read {context : Context} {start : Nat} {data : Bytes} {p : Protocol} {layers : List Layer}
      (held : data ≠ []) (claimed : Protocol.next? set context = some p)
      (complete : (p.read data context).isComplete = true)
      (rest : Decodes set ⟨context.linkType, false, (p.read data context).hints⟩
        (Layer.readAt p context start data).stop (p.read data context).rest layers) :
      Decodes set context start data (.readAt p context start data :: layers)

variable {set : List Protocol} {context : Context} {room start : Nat} {data : Bytes}
  {layers : List Layer}

/-- As many steps as there are bytes are enough. -/
theorem Layer.decodes_ofBytes (enough : data.length ≤ room) :
    Decodes set context start data (ofBytes set room context start data) := by
  induction room generalizing context start data with
  | zero =>
    rw [List.length_eq_zero_iff.mp (Nat.le_zero.mp enough)]
    exact .done context start
  | succ room ih =>
    unfold ofBytes
    split
    next empty =>
      rw [List.isEmpty_iff.mp empty]
      exact .done context start
    next some_ =>
      have held : data ≠ [] := fun empty => some_ (List.isEmpty_iff.mpr empty)
      split
      next unclaimed => exact .unclaimed start data unclaimed
      next p claimed =>
        by_cases complete : (p.read data context).isComplete = true
        · have less := (p.tells_read data context).consumes.rest_lt complete
          simp only [complete, if_true]
          exact .read held claimed complete (ih (by omega))
        · rw [Bool.not_eq_true] at complete
          simp only [complete, Bool.false_eq_true, if_false]
          exact .broken held claimed complete

namespace Decodes

/-- With enough steps to go, the layers are those of the decoding in steps. -/
theorem eq_ofBytes (h : Decodes set context start data layers) (enough : data.length ≤ room) :
    layers = Layer.ofBytes set room context start data := by
  induction h generalizing room with
  | done => cases room <;> rfl
  | unclaimed _ _ claimed =>
    cases room with
    | zero => rfl
    | succ room =>
      rw [Layer.ofBytes, claimed]
      split <;> rfl
  | broken held claimed incomplete =>
    obtain ⟨room, rfl⟩ := Nat.exists_eq_succ_of_ne_zero
      (Nat.ne_of_gt ((List.length_pos_iff.mpr held).trans_le enough))
    rw [Layer.ofBytes, List.isEmpty_eq_false_iff.mpr held, claimed]
    simp only [incomplete, Bool.false_eq_true, if_false]
    rfl
  | @read context _ data p _ held claimed complete _ ih =>
    obtain ⟨room, rfl⟩ := Nat.exists_eq_succ_of_ne_zero
      (Nat.ne_of_gt ((List.length_pos_iff.mpr held).trans_le enough))
    have less := (p.tells_read data context).consumes.rest_lt complete
    rw [Layer.ofBytes, List.isEmpty_eq_false_iff.mpr held, claimed]
    simp only [complete, Bool.false_eq_true, if_true, if_false]
    rw [ih (by omega : _ ≤ room)]
    rfl

theorem iff_eq_ofFrame {linkType : UInt16} {frame : Bytes} :
    Decodes set (.start linkType) 0 frame layers ↔ layers = Layer.ofFrame set linkType frame := by
  constructor
  · exact fun h => h.eq_ofBytes (Nat.le_refl _)
  · rintro rfl
    exact Layer.decodes_ofBytes (Nat.le_refl _)

/-! ### Places -/

theorem start_of_head? (h : Decodes set context start data layers) {first : Layer}
    (head : layers.head? = some first) : first.start = start := by
  cases h with
  | done | unclaimed => cases head
  | broken | read =>
    cases head
    rfl

/-- A layer ends where the next one starts. -/
theorem adjoining (h : Decodes set context start data layers) :
    layers.IsChain fun a b => a.stop = b.start := by
  induction h with
  | done | unclaimed => exact .nil
  | broken => exact .singleton _
  | read _ _ _ rest ih => exact ih.cons fun next head => (rest.start_of_head? head).symm

theorem stop_le (h : Decodes set context start data layers) :
    ∀ layer ∈ layers, layer.stop ≤ start + data.length := by
  induction h with
  | done | unclaimed => simp
  | broken =>
    refine List.forall_mem_singleton.mpr ?_
    exact Nat.add_le_add_left (Nat.sub_le _ _) _
  | @read context start data p layers _ _ _ _ ih =>
    have less := (p.tells_read data context).consumes.suffix.length_le
    refine List.forall_mem_cons.mpr ⟨Nat.add_le_add_left (Nat.sub_le _ _) _, ?_⟩
    intro layer member
    have inside := ih layer member
    simp only [Layer.readAt] at inside
    omega

/-- A layer that was read to its end holds a byte. -/
theorem start_lt_stop (h : Decodes set context start data layers) :
    ∀ layer ∈ layers, layer.reading.isComplete = true → layer.start < layer.stop := by
  induction h with
  | done | unclaimed => simp
  | broken _ _ incomplete =>
    refine List.forall_mem_singleton.mpr fun complete => ?_
    rw [Layer.readAt_reading, incomplete] at complete
    cases complete
  | @read context start data p _ _ _ complete _ ih =>
    refine List.forall_mem_cons.mpr ⟨fun _ => ?_, ih⟩
    have less := (p.tells_read data context).consumes.rest_lt complete
    simp only [Layer.readAt]
    omega

/-- Every layer but the last was read to its end. -/
theorem complete_of_mem_dropLast (h : Decodes set context start data layers) :
    ∀ layer ∈ layers.dropLast, layer.reading.isComplete = true := by
  induction h with
  | done | unclaimed | broken => simp
  | @read _ _ _ _ layers _ _ complete _ ih =>
    cases layers with
    | nil => simp
    | cons => exact List.forall_mem_cons.mpr ⟨complete, ih⟩

end Decodes

/-! ### The language of protocols -/

namespace Stage

open RegularExpression (char)

variable {linkType : UInt16} {p : Protocol}

theorem claims_first : p.claims (first.context linkType) = true ↔
    p = .ethernet ∧ linkType = Protocol.ethernetLink := by
  cases p <;> simp [Protocol.claims, context, hints, Context.hint?]

theorem claims_link {etherType : Nat} : p.claims ((link etherType).context linkType) = true ↔
    (p = .vlan ∧ (etherType = EtherType.vlan ∨ etherType = EtherType.outerVlan)) ∨
      (p = .arp ∧ etherType = EtherType.arp) ∨ (p = .ipv4 ∧ etherType = EtherType.ipv4) ∨
      (p = .ipv6 ∧ etherType = EtherType.ipv6) := by
  cases p <;> simp [Protocol.claims, context, hints, Context.hint?]

theorem claims_network {protocol version length : Nat} :
    p.claims ((network protocol version length).context linkType) = true ↔
      (p = .tcp ∧ protocol = IpProtocol.tcp) ∨ (p = .udp ∧ protocol = IpProtocol.udp) ∨
        (p = .icmp ∧ protocol = IpProtocol.icmp ∧ version = 4) := by
  cases p <;> simp [Protocol.claims, context, hints, Context.hint?]

theorem claims_transport {source destination protocol : Nat} :
    p.claims ((transport source destination protocol).context linkType) = true ↔
      p = .dns ∧ (source = Header.dnsPort ∨ destination = Header.dnsPort) := by
  cases p <;> simp [Protocol.claims, context, hints, Context.hint?]

theorem claims_closed : p.claims (closed.context linkType) = false := by
  cases p <;> simp [Protocol.claims, context, hints, Context.hint?]

/-- A message of DNS or nothing; nothing if DNS takes no part. -/
def messages (set : List Protocol) : RegularExpression Protocol :=
  if .dns ∈ set then 1 + char .dns else 1

/-- The headers with ports, and what they carry. -/
def ports (set : List Protocol) : RegularExpression Protocol :=
  (char .tcp + char .udp) * messages set

/-- The headers behind the last link header. -/
def networks (set : List Protocol) : RegularExpression Protocol :=
  char .arp + char .ipv4 * (1 + (ports set + char .icmp)) + char .ipv6 * (1 + ports set)

/-- The headers of a frame: `ethernet vlan* (arp | ipv4 (tcp|udp|icmp)? | ipv6 (tcp|udp)?)`, where
TCP and UDP may carry DNS if it takes part. -/
def headers (set : List Protocol) : RegularExpression Protocol :=
  char .ethernet * ((char .vlan).star * networks set)

/-- The headers that can follow at a stage. -/
def language (set : List Protocol) : Stage → RegularExpression Protocol
  | first => headers set
  | link _ => (char .vlan).star * networks set
  | network _ version _ => if version = 4 then 1 + (ports set + char .icmp) else 1 + ports set
  | transport .. => messages set
  | closed => 1

section Words

variable {α : Type} {a : α} {r s : RegularExpression α} {word : List α}

theorem cons_mem_char_mul (h : word ∈ r.matches') : a :: word ∈ (char a * r).matches' :=
  Language.mem_mul.mpr ⟨[a], rfl, word, h, rfl⟩

theorem mem_star_mul (h : word ∈ s.matches') : word ∈ (r.star * s).matches' :=
  Language.mem_mul.mpr ⟨[], Language.nil_mem_kstar _, word, h, rfl⟩

theorem cons_mem_star_mul (h : word ∈ ((char a).star * s).matches') :
    a :: word ∈ ((char a).star * s).matches' := by
  obtain ⟨before, repeated, after, mem, rfl⟩ := Language.mem_mul.mp h
  obtain ⟨copies, rfl, each⟩ := Language.mem_kstar.mp repeated
  refine Language.mem_mul.mpr ⟨a :: copies.flatten, Language.mem_kstar.mpr ?_, after, mem, rfl⟩
  exact ⟨[a] :: copies, rfl, List.forall_mem_cons.mpr ⟨rfl, each⟩⟩

end Words

variable {set : List Protocol}

theorem nil_mem_messages (set : List Protocol) : [] ∈ (messages set).matches' := by
  unfold messages
  split
  next => exact .inl rfl
  next => rfl

theorem dns_mem_messages (member : .dns ∈ set) : [.dns] ∈ (messages set).matches' := by
  rw [messages, if_pos member]
  exact .inr rfl

theorem cons_mem_ports (transport : p = .tcp ∨ p = .udp) {word : List Protocol}
    (h : word ∈ (messages set).matches') : p :: word ∈ (ports set).matches' := by
  refine Language.mem_mul.mpr ⟨[p], ?_, word, h, rfl⟩
  rcases transport with rfl | rfl
  · exact .inl rfl
  · exact .inr rfl

/-- The headers at a stage are the one that is claimed there and those of the stage after it. -/
theorem cons_mem_language {stage next : Stage} (claims : p.claims (stage.context linkType) = true)
    (member : p ∈ set) (follows : Follows p next) {word : List Protocol}
    (h : word ∈ (next.language set).matches') : p :: word ∈ (stage.language set).matches' := by
  cases stage with
  | first =>
    obtain ⟨rfl, _⟩ := claims_first.mp claims
    cases follows
    exact cons_mem_char_mul h
  | link =>
    rcases claims_link.mp claims with ⟨rfl, _⟩ | ⟨rfl, _⟩ | ⟨rfl, _⟩ | ⟨rfl, _⟩ <;> cases follows
    · exact cons_mem_star_mul h
    · rw [show word = [] from h]
      exact mem_star_mul (.inl (.inl rfl))
    · exact mem_star_mul (.inl (.inr (cons_mem_char_mul h)))
    · exact mem_star_mul (.inr (cons_mem_char_mul h))
  | network _ version _ =>
    rw [language]
    rcases claims_network.mp claims with ⟨rfl, _⟩ | ⟨rfl, _⟩ | ⟨rfl, _, four⟩ <;> cases follows
    · have ports := cons_mem_ports (.inl rfl) h
      split
      next => exact .inr (.inl ports)
      next => exact .inr ports
    · have ports := cons_mem_ports (.inr rfl) h
      split
      next => exact .inr (.inl ports)
      next => exact .inr ports
    · rw [if_pos four, show word = [] from h]
      exact .inr (.inr rfl)
  | transport =>
    obtain ⟨rfl, _⟩ := claims_transport.mp claims
    cases follows
    rw [show word = [] from h]
    exact dns_mem_messages member
  | closed => rw [claims_closed] at claims; cases claims

theorem Follows.exists (p : Protocol) : ∃ next, Follows p next := by
  cases p with
  | ethernet => exact ⟨_, .ethernet 0⟩
  | vlan => exact ⟨_, .vlan 0⟩
  | arp => exact ⟨_, .arp⟩
  | ipv4 => exact ⟨_, .ipv4 0 0⟩
  | ipv6 => exact ⟨_, .ipv6 0 0⟩
  | tcp => exact ⟨_, .tcp 0 0⟩
  | udp => exact ⟨_, .udp 0 0⟩
  | icmp => exact ⟨_, .icmp⟩
  | dns => exact ⟨_, .dns⟩

theorem exists_mem_language (set : List Protocol) (stage : Stage) :
    ∃ word, word ∈ (stage.language set).matches' := by
  cases stage with
  | first => exact ⟨[.ethernet, .arp], cons_mem_char_mul (mem_star_mul (.inl (.inl rfl)))⟩
  | link => exact ⟨[.arp], mem_star_mul (.inl (.inl rfl))⟩
  | network =>
    refine ⟨[], ?_⟩
    rw [language]
    split <;> exact .inl rfl
  | transport => exact ⟨[], nil_mem_messages set⟩
  | closed => exact ⟨[], rfl⟩

end Stage

/-- No protocol claims the start of a frame that is not of Ethernet. -/
theorem Decodes.eq_nil_of_link {linkType : UInt16}
    (h : Decodes set (.start linkType) start data layers)
    (other : linkType ≠ Protocol.ethernetLink) : layers = [] := by
  generalize same : Context.start linkType = context at h
  cases h with
  | done | unclaimed => rfl
  | broken _ claimed | read _ claimed =>
    subst same
    exact absurd (Stage.claims_first.mp (Protocol.claims_of_next? claimed).2).2 other

/-- The protocols of the layers begin a word of the language of the stage. -/
theorem Decodes.prefix_language {linkType : UInt16} {stage : Stage}
    (h : Decodes set (stage.context linkType) start data layers) :
    ∃ word ∈ (stage.language set).matches', layers.map (·.protocol) <+: word := by
  generalize same : stage.context linkType = context at h
  induction h generalizing stage with
  | done | unclaimed =>
    obtain ⟨word, mem⟩ := stage.exists_mem_language set
    exact ⟨word, mem, List.nil_prefix⟩
  | @broken _ _ _ p _ claimed =>
    subst same
    obtain ⟨member, claims⟩ := Protocol.claims_of_next? claimed
    obtain ⟨next, follows⟩ := Stage.Follows.exists p
    obtain ⟨word, mem⟩ := next.exists_mem_language set
    exact ⟨p :: word, Stage.cons_mem_language claims member follows mem,
      List.cons_prefix_cons.mpr ⟨rfl, List.nil_prefix⟩⟩
  | @read _ _ _ p _ _ claimed complete _ ih =>
    subst same
    obtain ⟨member, claims⟩ := Protocol.claims_of_next? claimed
    obtain ⟨next, follows, hints⟩ := Protocol.read_follows complete
    obtain ⟨word, mem, begins⟩ := ih (follows.context_eq hints).symm
    exact ⟨p :: word, Stage.cons_mem_language claims member follows mem,
      List.cons_prefix_cons.mpr ⟨rfl, begins⟩⟩

/-! ### The layers of a frame -/

/-- The layers follow the language of headers and lie one behind the other in the frame, and only
the last of them may have been cut off or malformed. -/
structure IsLayering (set : List Protocol) (linkType : UInt16) (frame : Bytes)
    (layers : List Layer) : Prop where
  begins_word : ∃ word ∈ (Stage.headers set).matches', layers.map (·.protocol) <+: word
  none_of_link : linkType ≠ 1 → layers = []
  starts : ∀ first, layers.head? = some first → first.start = 0
  adjoining : layers.IsChain fun a b => a.stop = b.start
  inside : ∀ layer ∈ layers, layer.stop ≤ frame.length
  holds_byte : ∀ layer ∈ layers, layer.reading.fault = none → layer.start + 1 ≤ layer.stop
  whole_below : ∀ layer ∈ layers.dropLast, layer.reading.fault = none

/-- The decoding of a frame ends, in one way, and its layers are well formed. -/
theorem Layer.ofFrame_isLayering (set : List Protocol) (linkType : UInt16) (frame : Bytes) :
    (∀ layers, Decodes set (.start linkType) 0 frame layers ↔
      layers = ofFrame set linkType frame) ∧
    IsLayering set linkType frame (ofFrame set linkType frame) := by
  have decodes : Decodes set (Stage.first.context linkType) 0 frame
      (ofFrame set linkType frame) :=
    Decodes.iff_eq_ofFrame.mpr rfl
  refine ⟨fun layers => Decodes.iff_eq_ofFrame, ?_⟩
  exact {
    begins_word := decodes.prefix_language
    none_of_link := decodes.eq_nil_of_link
    starts := fun first => decodes.start_of_head?
    adjoining := decodes.adjoining
    inside := fun layer member => by simpa using decodes.stop_le layer member
    holds_byte := fun layer member whole =>
      decodes.start_lt_stop layer member (Option.isNone_iff_eq_none.mpr whole)
    whole_below := fun layer member =>
      Option.isNone_iff_eq_none.mp (decodes.complete_of_mem_dropLast layer member) }

end PacketQuery
