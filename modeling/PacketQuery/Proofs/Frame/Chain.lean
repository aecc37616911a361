import PacketQuery.Proofs.Frame.Stage
/-!
The layers of a decoding as a chain of stages: each layer is claimed at the stage that the one
before it leads to. From this come the order of the layers, that no frame has two network or two
transport layers, and what decoding with fewer protocols leaves out.
-/

namespace PacketQuery

/-- The layer that a protocol reads at a place of the frame. -/
def Layer.readAt (p : Protocol) (context : Context) (start : Nat) (data : Bytes) : Layer :=
  ⟨p, start, start + (data.length - (p.read data context).rest.length), p.read data context⟩

@[simp] theorem Layer.readAt_protocol (p : Protocol) (context : Context) (start : Nat)
    (data : Bytes) : (readAt p context start data).protocol = p :=
  rfl

@[simp] theorem Layer.readAt_reading (p : Protocol) (context : Context) (start : Nat)
    (data : Bytes) : (readAt p context start data).reading = p.read data context :=
  rfl

/-- The layer was read to its end and leads to a stage. -/
structure Layer.LeadsTo (layer : Layer) (next : Stage) : Prop where
  complete : layer.reading.isComplete = true
  follows : Stage.Follows layer.protocol next
  hints : layer.reading.hints = next.hints

/-- Layers that follow one another from a stage and a place of the frame on. -/
inductive Chain (linkType : UInt16) : Stage → Nat → List Layer → Prop
  | done (stage : Stage) (start : Nat) : Chain linkType stage start []
  /-- Nothing follows a header that could not be read to its end. -/
  | broken {stage : Stage} {start : Nat} {p : Protocol} {data : Bytes}
      (claims : p.claims (stage.context linkType) = true)
      (incomplete : (p.read data (stage.context linkType)).isComplete = false) :
      Chain linkType stage start [.readAt p (stage.context linkType) start data]
  | read {stage next : Stage} {start : Nat} {p : Protocol} {data : Bytes} {layers : List Layer}
      (claims : p.claims (stage.context linkType) = true)
      (leads : (Layer.readAt p (stage.context linkType) start data).LeadsTo next)
      (rest : Chain linkType next (Layer.readAt p (stage.context linkType) start data).stop
        layers) :
      Chain linkType stage start (.readAt p (stage.context linkType) start data :: layers)

/-! ### Decodings are chains -/

theorem Protocol.claims_of_next? {set : List Protocol} {context : Context} {p : Protocol}
    (h : next? set context = some p) : p ∈ set ∧ p.claims context = true := by
  refine ⟨List.mem_reverse.mp (List.mem_of_find?_eq_some h), ?_⟩
  simpa using List.find?_some h

variable {linkType : UInt16}

/-- The context after a header is that of the stage it leads to. -/
theorem Stage.Follows.context_eq {p : Protocol} {next : Stage} (follows : Follows p next)
    {hints : List (Hint × Nat)} (h : hints = next.hints) :
    (⟨linkType, false, hints⟩ : Context) = next.context linkType := by
  simp [context, follows.ne_first, h]

theorem Layer.ofBytes_chain (set : List Protocol) (room : Nat) (stage : Stage) (start : Nat)
    (data : Bytes) :
    Chain linkType stage start (ofBytes set room (stage.context linkType) start data) := by
  induction room generalizing stage start data with
  | zero => exact .done stage start
  | succ room ih =>
    unfold ofBytes
    split
    next => exact .done stage start
    next =>
      split
      next => exact .done stage start
      next p claimed =>
        obtain ⟨_, claims⟩ := Protocol.claims_of_next? claimed
        by_cases complete : (p.read data (stage.context linkType)).isComplete = true
        · obtain ⟨next, follows, hints⟩ := Protocol.read_follows complete
          simp only [complete, if_true]
          rw [show (stage.context linkType).linkType = linkType from rfl,
            follows.context_eq hints]
          exact .read claims ⟨complete, follows, hints⟩ (ih next _ _)
        · rw [Bool.not_eq_true] at complete
          simp only [complete, Bool.false_eq_true, if_false]
          exact .broken claims complete

theorem Layer.ofFrame_chain (set : List Protocol) (linkType : UInt16) (frame : Bytes) :
    Chain linkType .first 0 (ofFrame set linkType frame) :=
  ofBytes_chain set frame.length .first 0 frame

/-! ### The order of layers -/

namespace Chain

variable {stage : Stage} {start : Nat} {layers : List Layer}

theorem height_le (h : Chain linkType stage start layers) :
    ∀ layer ∈ layers, stage.height ≤ layer.protocol.height := by
  induction h with
  | done => simp
  | broken claims => simpa [Layer.readAt] using Stage.height_le_of_claims claims
  | read claims leads _ ih =>
    have first := Stage.height_le_of_claims claims
    have above := leads.follows.height_le
    rw [Layer.readAt_protocol] at above
    intro layer member
    rcases List.mem_cons.mp member with rfl | later
    · exact first
    · have := ih layer later
      omega

/-- Every layer but a tag lies below all that follow. -/
theorem pairwise (h : Chain linkType stage start layers) :
    layers.Pairwise fun a b => a.protocol = .vlan ∨ a.protocol.height < b.protocol.height := by
  induction h with
  | done => exact .nil
  | broken => simp
  | @read _ _ _ p _ _ _ leads rest ih =>
    refine List.pairwise_cons.mpr ⟨fun later member => ?_, ih⟩
    by_cases tag : p = .vlan
    · exact .inl tag
    · have above := leads.follows.height_lt tag
      have beyond := rest.height_le later member
      exact .inr (Nat.lt_of_lt_of_le above beyond)

/-- Of the protocols of one place, tags apart, a chain has one layer at most. -/
theorem pairwise_not_both (h : Chain linkType stage start layers) {test : Protocol → Bool}
    {place : Nat} (single : ∀ p, test p = true → p ≠ .vlan ∧ p.height = place) :
    layers.Pairwise fun a b => ¬ (test a.protocol = true ∧ test b.protocol = true) := by
  refine h.pairwise.imp fun {a b} ordered both => ?_
  obtain ⟨untagged, first⟩ := single _ both.1
  obtain ⟨_, second⟩ := single _ both.2
  rcases ordered with tag | below
  · exact untagged tag
  · omega

/-- The one layer of a place is found wherever it stands. -/
theorem find?_eq_some (h : Chain linkType stage start layers) {test : Protocol → Bool}
    {place : Nat} (single : ∀ p, test p = true → p ≠ .vlan ∧ p.height = place) {layer : Layer}
    (member : layer ∈ layers) (matched : test layer.protocol = true) :
    layers.find? (test ·.protocol) = some layer := by
  have alone := h.pairwise_not_both single
  -- The induction is on the list, whose rest is a chain from another stage.
  clear h
  induction layers with
  | nil => simp at member
  | cons first others ih =>
    obtain ⟨apart, alone⟩ := List.pairwise_cons.mp alone
    rcases List.mem_cons.mp member with rfl | later
    · exact List.find?_cons_of_pos matched
    · have unmatched : ¬ test first.protocol = true :=
        fun again => apart layer later ⟨again, matched⟩
      simpa [unmatched] using ih later alone

/-- Nothing follows a header that says nothing of the next. -/
theorem eq_nil_of_closed (h : Chain linkType .closed start layers) : layers = [] := by
  apply List.eq_nil_iff_forall_not_mem.mpr
  intro layer member
  have high := h.height_le layer member
  have low : layer.protocol.height ≤ 4 := by cases layer.protocol <;> decide
  simp only [Stage.height] at high
  omega

/-- Every layer is what its protocol reads of some bytes. -/
theorem reading_eq (h : Chain linkType stage start layers) :
    ∀ layer ∈ layers, ∃ data context, layer.reading = layer.protocol.read data context := by
  induction h with
  | done => simp
  | broken => exact List.forall_mem_singleton.mpr ⟨_, _, rfl⟩
  | read _ _ _ ih => exact List.forall_mem_cons.mpr ⟨⟨_, _, rfl⟩, ih⟩

/-- The address fields of an IPv4 header come together, and both are addresses. -/
theorem ipv4_fields (h : Chain linkType stage start layers) {layer : Layer}
    (member : layer ∈ layers) (ipv4 : layer.protocol = .ipv4) :
    (∃ source destination, layer.reading.field? "src" = some (.ipv4 source) ∧
      layer.reading.field? "dst" = some (.ipv4 destination)) ∨
    ∀ name, layer.reading.field? name = none := by
  obtain ⟨data, context, reading⟩ := h.reading_eq layer member
  rw [ipv4] at reading
  rw [reading]
  rcases Protocol.read_wholeOrFailed (p := .ipv4) rfl with whole | ⟨fault, failed⟩
  · exact .inl (Header.ipv4_addresses whole)
  · rw [failed]
    exact .inr (Reading.field?_failed fault data)

/-- The port fields of the transport header come together, and both are ports. -/
theorem port_fields (h : Chain linkType stage start layers) {layer : Layer}
    (found : (layers.find? fun layer => layer.protocol == .tcp || layer.protocol == .udp)
      = some layer) :
    (∃ source destination, layer.reading.field? "sport" = some (.u16 source) ∧
      layer.reading.field? "dport" = some (.u16 destination)) ∨
    ∀ name, layer.reading.field? name = none := by
  have transport : layer.protocol = .tcp ∨ layer.protocol = .udp := by
    simpa using List.find?_some found
  obtain ⟨data, context, reading⟩ := h.reading_eq layer (List.mem_of_find?_eq_some found)
  have below : layer.protocol.isApplication = false := by
    rcases transport with tcp | udp
    · rw [tcp]
      rfl
    · rw [udp]
      rfl
  rw [reading]
  rcases Protocol.read_wholeOrFailed below with whole | ⟨fault, failed⟩
  · obtain ⟨source, destination, sport, dport, _⟩ := Protocol.read_transport transport whole
    exact .inl ⟨source, destination, sport, dport⟩
  · rw [failed]
    exact .inr (Reading.field?_failed fault data)

/-- A DNS layer stands over a header that leads to the port of DNS. -/
theorem carriesDns (h : Chain linkType stage start layers) {layer : Layer}
    (member : layer ∈ layers) (dns : layer.protocol = .dns) :
    stage.CarriesDns ∨ ∃ below ∈ layers, ∃ next, below.LeadsTo next ∧ next.CarriesDns := by
  induction h with
  | done => simp at member
  | broken claims =>
    rw [List.mem_singleton.mp member, Layer.readAt_protocol] at dns
    exact .inl (Stage.carriesDns_of_claims (dns ▸ claims))
  | read claims leads rest ih =>
    rcases List.mem_cons.mp member with rfl | later
    · rw [Layer.readAt_protocol] at dns
      exact .inl (Stage.carriesDns_of_claims (dns ▸ claims))
    · rcases ih later with here | ⟨below, before, next, hints⟩
      · exact .inr ⟨_, List.mem_cons_self, _, leads, here⟩
      · exact .inr ⟨below, List.mem_cons_of_mem _ before, next, hints⟩

end Chain

/-! ### Decoding without applications -/

namespace Protocol

theorem next?_all (context : Context) :
    next? all context = if dns.claims context then some dns else next? lower context := by
  cases h : dns.claims context <;> simp [next?, all, h]

theorem not_isApplication_of_next?_lower {context : Context} {p : Protocol}
    (h : next? lower context = some p) : p.isApplication = false := by
  have member := (claims_of_next? h).1
  clear h
  revert p
  decide

/-- Below the applications nothing claims what a header above the network carries. -/
theorem next?_lower_of_above {stage : Stage} (above : 3 < stage.height) :
    next? lower (stage.context linkType) = none := by
  cases claimed : next? lower (stage.context linkType) with
  | none => rfl
  | some p =>
    obtain ⟨member, claims⟩ := claims_of_next? claimed
    have high := Stage.height_le_of_claims claims
    have low := height_lower member
    omega

end Protocol

theorem Stage.CarriesDns.above {stage : Stage} (h : stage.CarriesDns) : 3 < stage.height := by
  cases stage with
  | transport => exact Nat.lt_succ_self 3
  | _ => exact absurd h id

namespace Layer

variable {stage : Stage} {room start : Nat} {data : Bytes}

/-- Nothing follows a DNS message. -/
theorem ofBytes_of_dns {set : List Protocol}
    (claimed : Protocol.next? set (stage.context linkType) = some .dns) (some_ : data ≠ []) :
    ofBytes set (room + 1) (stage.context linkType) start data
      = [readAt .dns (stage.context linkType) start data] := by
  have held : data.isEmpty = false := List.isEmpty_eq_false_iff.mpr some_
  rw [ofBytes, held, claimed]
  simp only [Bool.false_eq_true, if_false]
  split
  next complete =>
    obtain ⟨next, follows, hints⟩ := Protocol.read_follows complete
    cases follows
    rw [show (stage.context linkType).linkType = linkType from rfl,
      Stage.Follows.dns.context_eq hints, (ofBytes_chain _ _ _ _ _).eq_nil_of_closed]
    rfl
  next => rfl

/-- Above the transport headers there is a DNS message or nothing. -/
theorem ofBytes_above (above : 3 < stage.height) (enough : data.length ≤ room) :
    ofBytes Protocol.all room (stage.context linkType) start data
      = if data ≠ [] ∧ Protocol.dns.claims (stage.context linkType) = true then
          [readAt .dns (stage.context linkType) start data]
        else [] := by
  have next := Protocol.next?_all (stage.context linkType)
  rw [Protocol.next?_lower_of_above above] at next
  cases room with
  | zero =>
    have none : data = [] := List.length_eq_zero_iff.mp (Nat.le_zero.mp enough)
    simp [ofBytes, none]
  | succ room =>
    by_cases some_ : data = []
    · simp [ofBytes, some_]
    · by_cases claims : Protocol.dns.claims (stage.context linkType) = true
      · rw [if_pos claims] at next
        rw [ofBytes_of_dns next some_, if_pos ⟨some_, claims⟩]
      · rw [if_neg claims] at next
        simp [ofBytes, some_, next, claims]

/-- Decoding below the applications gives the layers below the applications. -/
theorem ofBytes_lower (room : Nat) (stage : Stage) (start : Nat) (data : Bytes) :
    ofBytes Protocol.lower room (stage.context linkType) start data
      = (ofBytes Protocol.all room (stage.context linkType) start data).filter
          (!·.protocol.isApplication) := by
  induction room generalizing stage start data with
  | zero => rfl
  | succ room ih =>
    have next := Protocol.next?_all (stage.context linkType)
    by_cases claims : Protocol.dns.claims (stage.context linkType) = true
    -- Where DNS claims, nothing below the applications does.
    · have above := (Stage.carriesDns_of_claims claims).above
      rw [if_pos claims] at next
      by_cases some_ : data = []
      · simp [ofBytes, some_]
      · rw [ofBytes_of_dns next some_]
        simp [ofBytes, some_, Protocol.next?_lower_of_above above, Protocol.isApplication]
    · rw [if_neg claims] at next
      unfold ofBytes
      rw [next]
      split
      next => rfl
      next =>
        split
        next => rfl
        next p claimed =>
          dsimp only
          have kept := Protocol.not_isApplication_of_next?_lower claimed
          split
          next complete =>
            obtain ⟨next, follows, hints⟩ := Protocol.read_follows complete
            rw [show (stage.context linkType).linkType = linkType from rfl,
              follows.context_eq hints, ih, List.filter_cons_of_pos]
            simp [kept]
          next => simp [kept]

theorem ofFrame_lower (linkType : UInt16) (frame : Bytes) :
    ofFrame Protocol.lower linkType frame
      = (ofFrame Protocol.all linkType frame).filter (!·.protocol.isApplication) :=
  ofBytes_lower frame.length .first 0 frame

end Layer

end PacketQuery
