import PacketQuery.Proofs.Frame.Layering
/-!
The order of the protocols does not matter. Whatever the bytes of a frame are, the decoding comes
only to contexts that are those of a stage, and at each stage one protocol at most can claim: the
choice between the protocols is never left to the order in which they are listed.
-/

namespace PacketQuery

namespace Stage

variable {linkType : UInt16} {stage : Stage} {p q : Protocol} {set set' : List Protocol}

/-- The one protocol that can claim at a stage. -/
def claimant? (linkType : UInt16) : Stage → Option Protocol
  | first => if linkType = Protocol.ethernetLink then some .ethernet else none
  | link etherType =>
    if etherType = EtherType.vlan ∨ etherType = EtherType.outerVlan then some .vlan
    else if etherType = EtherType.arp then some .arp
    else if etherType = EtherType.ipv4 then some .ipv4
    else if etherType = EtherType.ipv6 then some .ipv6
    else none
  | network protocol version _ =>
    if protocol = IpProtocol.tcp then some .tcp
    else if protocol = IpProtocol.udp then some .udp
    else if protocol = IpProtocol.icmp ∧ version = 4 then some .icmp
    else none
  | transport source destination _ =>
    if source = Header.dnsPort ∨ destination = Header.dnsPort then some .dns else none
  | closed => none

/-- The types of the protocols, and their numbers, differ from each other. -/
theorem claims_iff :
    p.claims (stage.context linkType) = true ↔ stage.claimant? linkType = some p := by
  cases stage with
  | first =>
    rw [claims_first, claimant?]
    split <;> simp_all [eq_comm]
  | link etherType =>
    rw [claims_link, claimant?]
    grind [EtherType.vlan, EtherType.outerVlan, EtherType.arp, EtherType.ipv4, EtherType.ipv6]
  | network protocol version length =>
    rw [claims_network, claimant?]
    grind [IpProtocol.tcp, IpProtocol.udp, IpProtocol.icmp]
  | transport source destination protocol =>
    rw [claims_transport, claimant?]
    split <;> simp_all [eq_comm]
  | closed =>
    rw [claims_closed]
    exact ⟨nofun, nofun⟩

theorem eq_of_claims (first : p.claims (stage.context linkType) = true)
    (second : q.claims (stage.context linkType) = true) : p = q :=
  Option.some.inj ((claims_iff.mp first).symm.trans (claims_iff.mp second))

theorem next?_eq_some_iff : Protocol.next? set (stage.context linkType) = some p ↔
    p ∈ set ∧ stage.claimant? linkType = some p := by
  constructor
  · intro chosen
    obtain ⟨member, claims⟩ := Protocol.claims_of_next? chosen
    exact ⟨member, claims_iff.mp claims⟩
  · rintro ⟨member, claimant⟩
    have claims := claims_iff.mpr claimant
    have found : (Protocol.next? set (stage.context linkType)).isSome = true :=
      List.find?_isSome.mpr ⟨p, List.mem_reverse.mpr member, claims⟩
    obtain ⟨q, chosen⟩ := Option.isSome_iff_exists.mp found
    obtain ⟨_, other⟩ := Protocol.claims_of_next? chosen
    rw [chosen, eq_of_claims other claims]

/-- Who comes next at a stage depends only on which protocols take part. -/
theorem next?_congr (same : ∀ p, p ∈ set ↔ p ∈ set') (stage : Stage) :
    Protocol.next? set (stage.context linkType) = Protocol.next? set' (stage.context linkType) := by
  refine Option.ext fun p => ?_
  rw [next?_eq_some_iff, next?_eq_some_iff, same]

end Stage

/-! ### The steps of a decoding -/

/-- The contexts, places and data that the decoding of a frame comes to: the start, and what is
handed on by every header that is read to its end. -/
inductive Reached (set : List Protocol) (linkType : UInt16) (frame : Bytes) :
    Context → (start : Nat) → Bytes → Prop
  | start : Reached set linkType frame (.start linkType) 0 frame
  | step {context : Context} {start : Nat} {data : Bytes} {p : Protocol}
      (before : Reached set linkType frame context start data) (held : data ≠ [])
      (claimed : Protocol.next? set context = some p)
      (complete : (p.read data context).isComplete = true) :
      Reached set linkType frame ⟨context.linkType, false, (p.read data context).hints⟩
        (Layer.readAt p context start data).stop (p.read data context).rest

variable {set set' : List Protocol} {linkType : UInt16} {frame data : Bytes} {context : Context}
  {start : Nat} {layers : List Layer} {layer : Layer}

theorem Reached.exists_stage (h : Reached set linkType frame context start data) :
    ∃ stage : Stage, context = stage.context linkType := by
  induction h with
  | start => exact ⟨.first, rfl⟩
  | step _ _ _ complete ih =>
    obtain ⟨stage, rfl⟩ := ih
    obtain ⟨next, follows, hints⟩ := Protocol.read_follows complete
    exact ⟨next, follows.context_eq hints⟩

/-- Data that a protocol claims begins with its layer, and goes on where that is read to its end. -/
theorem Decodes.of_claimed (h : Decodes set context start data layers) (held : data ≠ [])
    {p : Protocol} (claimed : Protocol.next? set context = some p) :
    ∃ rest, layers = .readAt p context start data :: rest ∧
      ((p.read data context).isComplete = true →
        Decodes set ⟨context.linkType, false, (p.read data context).hints⟩
          (Layer.readAt p context start data).stop (p.read data context).rest rest) := by
  cases h with
  | done => exact absurd rfl held
  | unclaimed _ _ unclaimed =>
    rw [claimed] at unclaimed
    cases unclaimed
  | broken _ claimed' incomplete =>
    obtain rfl := Option.some.inj (claimed.symm.trans claimed')
    refine ⟨[], rfl, fun complete => ?_⟩
    rw [incomplete] at complete
    cases complete
  | read _ claimed' _ rest =>
    obtain rfl := Option.some.inj (claimed.symm.trans claimed')
    exact ⟨_, rfl, fun _ => rest⟩

/-- What is decoded from where the decoding has come to ends the layers of the frame. -/
theorem Reached.decodes (h : Reached set linkType frame context start data) :
    ∃ layers, Decodes set context start data layers ∧
      layers <:+ Layer.ofFrame set linkType frame := by
  induction h with
  | start => exact ⟨_, Decodes.iff_eq_ofFrame.mpr rfl, List.suffix_rfl⟩
  | step _ held claimed complete ih =>
    obtain ⟨layers, decodes, ends⟩ := ih
    obtain ⟨rest, rfl, follows⟩ := decodes.of_claimed held claimed
    exact ⟨rest, follows complete, (List.suffix_cons _ rest).trans ends⟩

theorem Decodes.exists_reached (h : Decodes set context start data layers)
    (reached : Reached set linkType frame context start data) (member : layer ∈ layers) :
    ∃ context start data p, Reached set linkType frame context start data ∧ data ≠ [] ∧
      Protocol.next? set context = some p ∧ layer = .readAt p context start data := by
  induction h with
  | done | unclaimed => cases member
  | broken held claimed =>
    exact ⟨_, _, _, _, reached, held, claimed, List.mem_singleton.mp member⟩
  | read held claimed complete _ ih =>
    rcases List.mem_cons.mp member with rfl | later
    · exact ⟨_, _, _, _, reached, held, claimed, rfl⟩
    · exact ih (.step reached held claimed complete) later

/-- The layers of a frame are those that are read at the steps of its decoding. -/
theorem Layer.mem_ofFrame_iff : layer ∈ ofFrame set linkType frame ↔
    ∃ context start data p, Reached set linkType frame context start data ∧ data ≠ [] ∧
      Protocol.next? set context = some p ∧ layer = readAt p context start data := by
  constructor
  · exact (Decodes.iff_eq_ofFrame.mpr rfl).exists_reached .start
  · rintro ⟨context, start, data, p, reached, held, claimed, rfl⟩
    obtain ⟨layers, decodes, ends⟩ := reached.decodes
    obtain ⟨rest, rfl, -⟩ := decodes.of_claimed held claimed
    exact ends.subset List.mem_cons_self

/-! ### The order of the protocols -/

namespace Protocol

/-- Of two protocols the one whose claim is stronger, and the second if they are alike. -/
def stronger (context : Context) (best : Option Protocol) (p : Protocol) : Option Protocol :=
  match p.priority context, best with
  | none, best => best
  | some _, none => some p
  | some n, some q => if (q.priority context).getD 0 ≤ n then some p else some q

/-- The protocol of `set` whose claim is the strongest, and the last of those alike. -/
def strongest? (set : List Protocol) (context : Context) : Option Protocol :=
  set.foldl (stronger context) none

/-- All claims are alike. -/
theorem stronger_eq (context : Context) (best : Option Protocol) (p : Protocol) :
    stronger context best p = if p.claims context then some p else best := by
  have bound : ∀ q : Protocol, (q.priority context).getD 0 ≤ 100 := by
    intro q
    rw [priority]
    split <;> simp
  unfold stronger
  cases claims : p.claims context with
  | false => simp [priority, claims]
  | true =>
    have claimed : p.priority context = some 100 := by simp [priority, claims]
    rw [claimed]
    cases best with
    | none => rfl
    | some q => exact if_pos (bound q)

theorem strongest?_eq_next? (set : List Protocol) (context : Context) :
    strongest? set context = next? set context := by
  induction set using List.reverseRecOn with
  | nil => rfl
  | append_singleton set p ih =>
    have last : strongest? (set ++ [p]) context = stronger context (strongest? set context) p := by
      rw [strongest?, List.foldl_append]
      rfl
    rw [last, stronger_eq, ih, next?, next?, List.reverse_append, List.reverse_singleton,
      List.singleton_append, List.find?_cons]
    cases p.claims context <;> rfl

end Protocol

theorem Decodes.congr (same : ∀ p, p ∈ set ↔ p ∈ set') {stage : Stage}
    (h : Decodes set (stage.context linkType) start data layers) :
    Decodes set' (stage.context linkType) start data layers := by
  generalize place : stage.context linkType = context at h
  induction h generalizing stage with
  | done => exact .done _ _
  | unclaimed _ _ claimed =>
    subst place
    exact .unclaimed _ _ (Stage.next?_congr same stage ▸ claimed)
  | broken held claimed incomplete =>
    subst place
    exact .broken held (Stage.next?_congr same stage ▸ claimed) incomplete
  | read held claimed complete _ ih =>
    subst place
    obtain ⟨next, follows, hints⟩ := Protocol.read_follows complete
    exact .read held (Stage.next?_congr same stage ▸ claimed) complete
      (ih (follows.context_eq hints).symm)

/-- In whatever order the protocols are listed, every frame has the same layers: at each step of
its decoding one protocol at most claims, and the strongest claim of the one order is that of the
other. -/
theorem Layer.ofFrame_of_perm {set set' : List Protocol} (same : set'.Perm set)
    (linkType : UInt16) (frame : Bytes) :
    ofFrame set' linkType frame = ofFrame set linkType frame ∧
    ∀ context start data, Reached set linkType frame context start data →
      (∀ p q : Protocol, p.claims context = true → q.claims context = true → p = q) ∧
      Protocol.strongest? set' context = Protocol.strongest? set context := by
  constructor
  · have decodes : Decodes set' (Stage.first.context linkType) 0 frame
        (ofFrame set' linkType frame) :=
      Decodes.iff_eq_ofFrame.mpr rfl
    exact Decodes.iff_eq_ofFrame.mp (decodes.congr fun p => same.mem_iff)
  · intro context start data reached
    obtain ⟨stage, rfl⟩ := reached.exists_stage
    refine ⟨fun p q => Stage.eq_of_claims, ?_⟩
    rw [Protocol.strongest?_eq_next?, Protocol.strongest?_eq_next?]
    exact Stage.next?_congr (fun p => same.mem_iff) stage

/-- With all protocols listed backwards, IPv4 still follows an Ethernet header of its type. -/
theorem Layer.ofFrame_of_reverse :
    let frame : Bytes := List.replicate 12 0 ++ [0x08, 0x00, 0x45]
    let known : Context := ⟨1, false, [(.etherType, 0x0800)]⟩
    Protocol.all.reverse.Perm Protocol.all ∧
      ofFrame Protocol.all.reverse 1 frame = ofFrame Protocol.all 1 frame ∧
      (ofFrame Protocol.all 1 frame).map (·.protocol) = [.ethernet, .ipv4] ∧
      Reached Protocol.all 1 frame known 14 [0x45] ∧
      Protocol.strongest? Protocol.all.reverse known = Protocol.strongest? Protocol.all known := by
  intro frame known
  have reversed : Protocol.all.reverse.Perm Protocol.all := List.reverse_perm _
  obtain ⟨same, steps⟩ := ofFrame_of_perm reversed 1 frame
  have claimed : Protocol.next? Protocol.all (.start 1) = some .ethernet := by decide
  have reached : Reached Protocol.all 1 frame known 14 [0x45] :=
    .step .start (List.cons_ne_nil _ _) claimed rfl
  exact ⟨reversed, same, by decide +kernel, reached, (steps _ _ _ reached).2⟩

end PacketQuery
