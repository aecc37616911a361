import PacketQuery.Catalog.Entry
import PacketQuery.Proofs.Catalog.MaskBits
import PacketQuery.Proofs.Frame.Chain
/-!
What going through the headers of a packet gives. Every header of a chain sets its own bit, the
addresses and ports are those of the one header that has them, and the length is where the last
header ends.
-/

namespace PacketQuery.Catalog

/-- A value that each matching element overwrites is that of the first, if no two match. -/
theorem foldl_eq_find? {σ α β : Type} {step : σ → β → σ} {read : σ → α} {test : β → Bool}
    {value : β → α} (each : ∀ s x, read (step s x) = if test x then value x else read s)
    {xs : List β} (single : xs.Pairwise fun a b => ¬ (test a = true ∧ test b = true)) (s : σ) :
    read (xs.foldl step s) = ((xs.find? test).map value).getD (read s) := by
  induction xs generalizing s with
  | nil => rfl
  | cons x xs ih =>
    obtain ⟨alone, single⟩ := List.pairwise_cons.mp single
    rw [List.foldl_cons, ih single, each, List.find?_cons]
    cases matched : test x with
    | false => rfl
    | true =>
      have none : xs.find? test = none := by
        refine List.find?_eq_none.mpr fun y member => ?_
        exact fun again => alone y member ⟨matched, again⟩
      rw [none]
      rfl

namespace Survey

/-- The bits that a header sets: its own, and that of destinations that cannot be reached. -/
def Tells (layer : Layer) (i : Nat) : Prop :=
  position? layer.protocol.name = some i ∨
    (layer.protocol = .icmp ∧ reportsUnreachable layer.reading = true ∧
      position? Packet.unreachableTag = some i)

theorem add_mask (s : Survey) (layer : Layer) : (s.add layer).mask = (s.addHeader layer).mask := by
  unfold add
  split <;> rfl

theorem addHeader_mask (s : Survey) {layer : Layer} (lower : layer.protocol.isApplication = false) :
    (s.addHeader layer).mask =
      if layer.protocol = .icmp ∧ reportsUnreachable layer.reading = true then
        (s.mask.insert layer.protocol.name).insert Packet.unreachableTag
      else s.mask.insert layer.protocol.name := by
  obtain ⟨p, start, stop, reading⟩ := layer
  cases p with
  | dns => simp [Protocol.isApplication] at lower
  | icmp =>
    have named : s.mask.insert "ICMP" = s.mask.insert Protocol.icmp.name :=
      Mask.insert_congr (by decide) s.mask
    have tagged : ∀ mask : Mask,
        mask.insert "ICMP_UNREACHABLE" = mask.insert Packet.unreachableTag :=
      Mask.insert_congr (by decide)
    simp only [addHeader, named, tagged, true_and]
  | _ =>
    simp only [addHeader, addTransport, reduceCtorEq, false_and, if_false]
    exact Mask.insert_congr (by decide) s.mask

theorem hasBit_add (s : Survey) {layer : Layer} (lower : layer.protocol.isApplication = false)
    (i : Nat) : (s.add layer).mask.hasBit i = true ↔ s.mask.hasBit i = true ∨ Tells layer i := by
  rw [add_mask, addHeader_mask s lower]
  split
  next tagged => simp [Mask.hasBit_insert, Tells, tagged, or_assoc]
  next plain =>
    rw [Mask.hasBit_insert, Bool.or_eq_true, beq_iff_eq]
    refine or_congr_right (Iff.symm (or_iff_left ?_))
    exact fun tag => plain ⟨tag.1, tag.2.1⟩

/-- The mask has the bits that its headers tell. -/
theorem hasBit_foldl_add {layers : List Layer}
    (lower : ∀ layer ∈ layers, layer.protocol.isApplication = false) (s : Survey) (i : Nat) :
    (layers.foldl add s).mask.hasBit i = true ↔
      s.mask.hasBit i = true ∨ ∃ layer ∈ layers, Tells layer i := by
  induction layers generalizing s with
  | nil => simp
  | cons layer layers ih =>
    obtain ⟨first, others⟩ := List.forall_mem_cons.mp lower
    rw [List.foldl_cons, ih others, hasBit_add s first, or_assoc]
    simp

/-! ### Addresses, ports and the transport -/

theorem add_source (s : Survey) (layer : Layer) :
    (s.add layer).source =
      if layer.protocol == .ipv4 then addressIn layer.reading "src" else s.source := by
  unfold add addHeader
  split <;> split <;> simp_all [addTransport]

theorem add_destination (s : Survey) (layer : Layer) :
    (s.add layer).destination =
      if layer.protocol == .ipv4 then addressIn layer.reading "dst" else s.destination := by
  unfold add addHeader
  split <;> split <;> simp_all [addTransport]

theorem add_sourcePort (s : Survey) (layer : Layer) :
    (s.add layer).sourcePort =
      if layer.protocol == .tcp || layer.protocol == .udp then portIn layer.reading "sport"
      else s.sourcePort := by
  unfold add addHeader
  split <;> split <;> simp_all [addTransport]

theorem add_destinationPort (s : Survey) (layer : Layer) :
    (s.add layer).destinationPort =
      if layer.protocol == .tcp || layer.protocol == .udp then portIn layer.reading "dport"
      else s.destinationPort := by
  unfold add addHeader
  split <;> split <;> simp_all [addTransport]

theorem add_transport (s : Survey) (layer : Layer) :
    (s.add layer).transport =
      if layer.protocol == .tcp || layer.protocol == .udp then
        some (Packet.ipProtocolOf layer.protocol)
      else s.transport := by
  unfold add addHeader
  split <;> split <;> simp_all [addTransport, Packet.ipProtocolOf]

variable {linkType : UInt16} {stage : Stage} {start : Nat} {layers : List Layer}

theorem ipv4_height (p : Protocol) (h : (p == .ipv4) = true) : p ≠ .vlan ∧ p.height = 2 := by
  rw [beq_iff_eq.mp h]
  decide

theorem transport_height (p : Protocol) (h : (p == .tcp || p == .udp) = true) :
    p ≠ .vlan ∧ p.height = 3 := by
  revert p
  simp [Protocol.height]

theorem source_ofLayers (h : Chain linkType stage start layers) :
    (ofLayers layers).source =
      ((layers.find? (·.protocol == .ipv4)).map (addressIn ·.reading "src")).getD 0 :=
  foldl_eq_find? add_source (h.pairwise_not_both ipv4_height) {}

theorem destination_ofLayers (h : Chain linkType stage start layers) :
    (ofLayers layers).destination =
      ((layers.find? (·.protocol == .ipv4)).map (addressIn ·.reading "dst")).getD 0 :=
  foldl_eq_find? add_destination (h.pairwise_not_both ipv4_height) {}

theorem sourcePort_ofLayers (h : Chain linkType stage start layers) :
    (ofLayers layers).sourcePort =
      ((layers.find? fun layer => layer.protocol == .tcp || layer.protocol == .udp).map
        (portIn ·.reading "sport")).getD 0 :=
  foldl_eq_find? add_sourcePort (h.pairwise_not_both transport_height) {}

theorem destinationPort_ofLayers (h : Chain linkType stage start layers) :
    (ofLayers layers).destinationPort =
      ((layers.find? fun layer => layer.protocol == .tcp || layer.protocol == .udp).map
        (portIn ·.reading "dport")).getD 0 :=
  foldl_eq_find? add_destinationPort (h.pairwise_not_both transport_height) {}

theorem transport_ofLayers (h : Chain linkType stage start layers) :
    (ofLayers layers).transport =
      ((layers.find? fun layer => layer.protocol == .tcp || layer.protocol == .udp).map
        fun layer => some (Packet.ipProtocolOf layer.protocol)).getD none :=
  foldl_eq_find? add_transport (h.pairwise_not_both transport_height) {}

/-! ### Where the headers end -/

/-- The length follows the end of the last header; one that could not be read takes no bytes. -/
theorem headerLength_foldl_add (h : Chain linkType stage start layers)
    (lower : ∀ layer ∈ layers, layer.protocol.isApplication = false) (s : Survey)
    (before : s.headerLength.toNat = min start 65535) :
    (layers.foldl add s).headerLength.toNat =
      min ((layers.getLast?.map (·.stop)).getD start) 65535 := by
  have kept : ∀ (s : Survey) (layer : Layer),
      (s.addHeader layer).headerLength = s.headerLength := by
    intro s layer
    unfold addHeader
    split <;> rfl
  induction h generalizing s with
  | done => exact before
  | @broken stage start p data claims incomplete =>
    have below : p.isApplication = false := lower _ List.mem_cons_self
    have unread : (p.read data (stage.context linkType)).rest = data := by
      rcases Protocol.read_wholeOrFailed below with whole | ⟨fault, failed⟩
      · rw [whole] at incomplete
        cases incomplete
      · rw [failed]
        rfl
    simp [add, incomplete, kept, before, Layer.readAt, unread]
  | @read stage next start p data layers claims leads rest ih =>
    obtain ⟨_, others⟩ := List.forall_mem_cons.mp lower
    -- Whatever the length was, a header that was read to its end sets it anew.
    have after : (s.add (Layer.readAt p (stage.context linkType) start data)).headerLength.toNat
        = min (Layer.readAt p (stage.context linkType) start data).stop 65535 := by
      simp only [add, leads.complete, if_true, UInt16.toNat_ofNat']
      omega
    rw [List.foldl_cons, ih others _ after]
    simp [List.getLast?_cons]

end Survey

end PacketQuery.Catalog
