import Mathlib.Data.List.Induction
import PacketQuery.Proofs.Rows.Counting
import PacketQuery.Proofs.Rows.KeyOrder
/-!
Grouping partitions the packets. Where no integer of the keys is also a float of them, a key finds
its own group and no other, so that there is one group for each key, in the order of the keys, and
it is made of the packets of its key in the order of their coming.
-/

namespace PacketQuery.Rows

open PacketQuery.Language (Aggregate Item)

deriving instance DecidableEq for Value

/-- What the packets of a key bring, in their order. -/
def inputsOf (packets : List (List Value × List Value)) (key : List Value) : List (List Value) :=
  (packets.filter (·.1 = key)).map (·.2)

/-- The group that the packets of a key make by themselves. -/
def groupOf (items : List Item) (packets : List (List Value × List Value)) (key : List Value) :
    Group :=
  let inputs := inputsOf packets key
  inputs.foldl Group.add (Group.start items key (inputs.headD []))

/-- The keys of the packets, each once and in ascending order. -/
structure KeysOf (packets : List (List Value × List Value)) (keys : List (List Value)) : Prop where
  ascending : keys.Pairwise (compareKeys · · = .lt)
  mem_iff : ∀ key, key ∈ keys ↔ key ∈ packets.map (·.1)

/-- The groups are those of the keys. -/
def Partitions (items : List Item) (packets : List (List Value × List Value)) (gs : List Group) :
    Prop :=
  ∃ keys, KeysOf packets keys ∧ gs = keys.map (groupOf items packets)

variable {items : List Item} {packets : List (List Value × List Value)} {key inputs : List Value}
variable {among : Value → Prop}

/-! ### Groups -/

/-- A run of packets changes only the count and the accumulators. -/
theorem Group.foldl_add (inputs : List (List Value)) (g : Group) :
    inputs.foldl add g = { g with
      packets := g.packets + UInt64.ofNat inputs.length
      accumulators := inputs.foldl addTo g.accumulators } := by
  induction inputs generalizing g with
  | nil => simp
  | cons input inputs ih =>
    have count : (g.add input).packets + UInt64.ofNat inputs.length
        = g.packets + UInt64.ofNat (inputs.length + 1) := by
      rw [UInt64.ofNat_add, UInt64.add_comm (UInt64.ofNat inputs.length), ← UInt64.add_assoc]
      rfl
    rw [List.foldl_cons, ih, count]
    rfl

@[simp] theorem key_groupOf (items : List Item) (packets : List (List Value × List Value))
    (key : List Value) : (groupOf items packets key).key = key := by
  rw [groupOf, Group.foldl_add]
  rfl

theorem first_groupOf (items : List Item) (packets : List (List Value × List Value))
    (key : List Value) : (groupOf items packets key).first = (inputsOf packets key).headD [] := by
  rw [groupOf, Group.foldl_add]
  rfl

theorem packets_groupOf (items : List Item) (packets : List (List Value × List Value))
    (key : List Value) :
    (groupOf items packets key).packets = UInt64.ofNat (inputsOf packets key).length := by
  rw [groupOf, Group.foldl_add]
  exact UInt64.zero_add _

theorem inputsOf_append_self (packets : List (List Value × List Value)) (key inputs : List Value) :
    inputsOf (packets ++ [(key, inputs)]) key = inputsOf packets key ++ [inputs] := by
  simp [inputsOf]

theorem inputsOf_append_of_ne {key' : List Value} (other : key' ≠ key)
    (packets : List (List Value × List Value)) (inputs : List Value) :
    inputsOf (packets ++ [(key', inputs)]) key = inputsOf packets key := by
  simp [inputsOf, other]

theorem inputsOf_eq_nil : inputsOf packets key = [] ↔ key ∉ packets.map (·.1) := by
  simp only [inputsOf, List.map_eq_nil_iff, List.filter_eq_nil_iff, decide_eq_true_eq, List.mem_map,
    not_exists, not_and]

theorem groupOf_append_of_ne {key' : List Value} (other : key' ≠ key) (items : List Item)
    (packets : List (List Value × List Value)) (inputs : List Value) :
    groupOf items (packets ++ [(key', inputs)]) key = groupOf items packets key := by
  rw [groupOf, groupOf, inputsOf_append_of_ne other]

/-- A further packet of a key that has a group. -/
theorem groupOf_append_of_mem (known : key ∈ packets.map (·.1)) (items : List Item)
    (inputs : List Value) :
    groupOf items (packets ++ [(key, inputs)]) key = (groupOf items packets key).add inputs := by
  have some_ : inputsOf packets key ≠ [] := fun none_ => inputsOf_eq_nil.mp none_ known
  obtain ⟨first, rest, brought⟩ := List.exists_cons_of_ne_nil some_
  rw [groupOf, groupOf, inputsOf_append_self, brought]
  exact List.foldl_append

/-- The first packet of a key. -/
theorem groupOf_append_of_not_mem (fresh : key ∉ packets.map (·.1)) (items : List Item)
    (inputs : List Value) :
    groupOf items (packets ++ [(key, inputs)]) key = (Group.start items key inputs).add inputs := by
  rw [groupOf, inputsOf_append_self, inputsOf_eq_nil.mpr fresh]
  rfl

/-- Groups of other keys do not see the packet. -/
theorem map_groupOf_append {keys : List (List Value)} (other : ∀ k ∈ keys, compareKeys key k ≠ .eq)
    (items : List Item) (packets : List (List Value × List Value)) (inputs : List Value) :
    keys.map (groupOf items (packets ++ [(key, inputs)])) = keys.map (groupOf items packets) := by
  refine List.map_congr_left fun k member => groupOf_append_of_ne ?_ items packets inputs
  rintro rfl
  exact other key member (compareKeys_self key)

/-! ### One packet -/

/-- A key cuts ascending keys in two. -/
theorem cut_of_ascending (unblurred : Value.Unblurred among) {keys : List (List Value)}
    (ascending : keys.Pairwise (compareKeys · · = .lt)) (inside : ∀ k ∈ keys, KeyOf among k)
    (own : KeyOf among key) (items : List Item) (packets : List (List Value × List Value)) :
    Cut (compareKeys key ·.key) (keys.map (groupOf items packets)) := by
  refine List.pairwise_map.mpr (ascending.imp_of_mem fun {k k'} first second lt => ?_)
  simp only [key_groupOf]
  have three := compareKeys_consistent unblurred own (inside k first) (inside k' second)
  cases side : compareKeys key k with
  | gt => exact .inl rfl
  | eq => exact .inr ((three.1 side).trans lt)
  | lt => exact .inr ((three.2.2 (side.trans lt.symm)).trans side)

/-- A packet whose key is there already. -/
theorem KeysOf.again {keys : List (List Value)} (h : KeysOf packets keys) (known : key ∈ keys)
    (inputs : List Value) : KeysOf (packets ++ [(key, inputs)]) keys where
  ascending := h.ascending
  mem_iff k := by
    have pushed := (h.mem_iff key).mp known
    rw [h.mem_iff, List.map_append, List.mem_append, List.map_singleton, List.mem_singleton]
    exact ⟨.inl, fun either => either.elim id (· ▸ pushed)⟩

/-- A packet whose key is new. -/
theorem KeysOf.enter {lower upper : List (List Value)} (h : KeysOf packets (lower ++ upper))
    (below : ∀ k ∈ lower, compareKeys key k = .gt) (above : ∀ k ∈ upper, compareKeys key k = .lt)
    (inputs : List Value) : KeysOf (packets ++ [(key, inputs)]) (lower ++ key :: upper) where
  ascending := by
    obtain ⟨first, second, across⟩ := List.pairwise_append.mp h.ascending
    refine List.pairwise_append.mpr ⟨first, List.pairwise_cons.mpr ⟨above, second⟩, ?_⟩
    intro k member
    refine List.forall_mem_cons.mpr ⟨?_, across k member⟩
    rw [compareKeys_swap, below k member]
    rfl
  mem_iff k := by
    have old := h.mem_iff k
    rw [List.mem_append] at old
    rw [List.map_append, List.mem_append, List.mem_append, List.map_singleton, List.mem_singleton,
      List.mem_cons, ← old]
    exact or_left_comm.trans or_comm

/-- In ascending keys, a key lies strictly on one side of the others. -/
theorem KeysOf.apart {lower upper : List (List Value)}
    (h : KeysOf packets (lower ++ key :: upper)) :
    (∀ k ∈ lower, compareKeys key k ≠ .eq) ∧ ∀ k ∈ upper, compareKeys key k ≠ .eq := by
  obtain ⟨-, second, across⟩ := List.pairwise_append.mp h.ascending
  refine ⟨fun k member => ?_, fun k member => ?_⟩
  · rw [compareKeys_swap, across k member key (.head _)]
    nofun
  · rw [(List.pairwise_cons.mp second).1 k member]
    nofun

theorem Partitions.add {groups : KeyTree Group} (h : Partitions items packets groups.toList)
    (unmixed : Value.Unmixed among) (built : ∀ packet ∈ packets, KeyOf among packet.1)
    (own : KeyOf among key) (inputs : List Value) :
    Partitions items (packets ++ [(key, inputs)]) (addPacket items groups key inputs).toList := by
  obtain ⟨keys, keysOf, shown⟩ := h
  have inside : ∀ k ∈ keys, KeyOf among k := by
    intro k member
    obtain ⟨packet, pushed, rfl⟩ := List.mem_map.mp ((keysOf.mem_iff k).mp member)
    exact built packet pushed
  have cut := cut_of_ascending unmixed.unblurred keysOf.ascending inside own items packets
  have updated := updated_addPacket items groups key inputs
  rw [← shown] at cut
  generalize (addPacket items groups key inputs).toList = after at updated ⊢
  generalize groups.toList = before at updated shown cut
  cases updated with
  | @changed left right group found =>
    obtain ⟨lower, rest, rfl, rfl, shown'⟩ := List.map_eq_append_iff.mp shown.symm
    obtain ⟨key', upper, rfl, rfl, rfl⟩ := List.map_eq_cons_iff.mp shown'
    rw [key_groupOf] at found
    -- No integer is also a float among the keys, so a key that compares equal is the packet's own.
    obtain rfl := (compareKeys_eq_eq unmixed own (inside key' (by simp))).mp found
    obtain ⟨below, above⟩ := keysOf.apart
    have known : key ∈ lower ++ key :: upper := by simp
    refine ⟨_, keysOf.again known inputs, ?_⟩
    rw [List.map_append, List.map_cons, map_groupOf_append below, map_groupOf_append above,
      groupOf_append_of_mem ((keysOf.mem_iff key).mp known)]
    rfl
  | added left right passed ahead =>
    obtain ⟨lower, upper, rfl, rfl, rfl⟩ := List.map_eq_append_iff.mp shown.symm
    obtain ⟨cutLower, cutUpper, -⟩ := List.pairwise_append.mp cut
    have below : ∀ k ∈ lower, compareKeys key k = .gt := by
      simpa using Cut.passed cutLower passed
    have above : ∀ k ∈ upper, compareKeys key k = .lt := by
      simpa using Cut.ahead cutUpper ahead
    have below' : ∀ k ∈ lower, compareKeys key k ≠ .eq := fun k member => by
      rw [below k member]
      nofun
    have above' : ∀ k ∈ upper, compareKeys key k ≠ .eq := fun k member => by
      rw [above k member]
      nofun
    have fresh : key ∉ packets.map (·.1) := by
      rw [← keysOf.mem_iff, List.mem_append]
      rintro (member | member)
      · exact below' key member (compareKeys_self key)
      · exact above' key member (compareKeys_self key)
    refine ⟨_, keysOf.enter below above inputs, ?_⟩
    rw [List.map_append, List.map_cons, map_groupOf_append below', map_groupOf_append above',
      groupOf_append_of_not_mem fresh]
    rfl

/-- The groups of a run of packets. -/
theorem partitions_groups (unmixed : Value.Unmixed among) (items : List Item)
    (built : ∀ packet ∈ packets, KeyOf among packet.1) :
    Partitions items packets (groups items packets) := by
  induction packets using List.reverseRecOn with
  | nil => exact ⟨[], ⟨.nil, fun _ => Iff.rfl⟩, rfl⟩
  | append_singleton packets packet ih =>
    obtain ⟨before, own⟩ := List.forall_mem_append.mp built
    have last := (ih before).add unmixed before (own packet (.head _)) packet.2
    rw [groups, List.foldl_append]
    exact last

/-! ### Cells -/

/-- What the row of a key shows in a column. A field listed in GROUP BY shows its part of the key,
another field what the first packet of the key brings, and a function of the packets is run over
what all packets of the key bring. -/
def shown? (groupBy : List String) (packets : List (List Value × List Value)) (key : List Value)
    (index : Nat) : Item → Option Value
  | .field name =>
    match groupBy.findIdx? (Text.same · name) with
    | some place => key[place]?
    | none => (inputsOf packets key).head?.bind (·[index]?)
  | .aggregate function _ _ =>
    ((inputsOf packets key).mapM (·[index]?)).map (Accumulator.run function)

/-- The row of a key. -/
def shownRow? (items : List Item) (groupBy : List String)
    (packets : List (List Value × List Value)) (key : List Value) : List (Option Value) :=
  items.zipIdx.map fun (item, index) => shown? groupBy packets key index item

/-- What a column shows for no packet. -/
def idle : Item → Value
  | .field _ => .null
  | .aggregate function _ _ => Accumulator.run function []

theorem getElem?_addTo {as : List (Option Accumulator)} {vs : List Value} {index : Nat} {v : Value}
    (brought : vs[index]? = some v) :
    (Group.addTo as vs)[index]? = as[index]?.map (Option.map (·.add v)) := by
  induction as generalizing vs index with
  | nil => cases vs <;> rfl
  | cons a as ih =>
    cases vs with
    | nil => cases brought
    | cons w vs =>
      cases index with
      | zero =>
        obtain rfl := Option.some.inj brought
        rfl
      | succ index => exact ih brought

/-- An accumulator is given what the packets bring in its column. -/
theorem getElem?_foldl_addTo {inputs : List (List Value)} {index : Nat} {column : List Value}
    (brought : inputs.map (·[index]?) = column.map some) (as : List (Option Accumulator)) :
    (inputs.foldl Group.addTo as)[index]?
      = as[index]?.map (Option.map (column.foldl Accumulator.add)) := by
  induction inputs generalizing as column with
  | nil =>
    cases column with
    | nil => simp
    | cons => cases brought
  | cons input inputs ih =>
    cases column with
    | nil => cases brought
    | cons v column =>
      obtain ⟨first, rest⟩ := List.cons.inj brought
      rw [List.foldl_cons, ih rest, getElem?_addTo first]
      cases as[index]? with
      | none => rfl
      | some a => cases a <;> rfl

/-- Inputs that all reach a column have a value each there. -/
theorem exists_column {inputs : List (List Value)} {index : Nat}
    (reach : ∀ input ∈ inputs, index < input.length) :
    ∃ column, inputs.mapM (·[index]?) = some column ∧
      inputs.map (·[index]?) = column.map some := by
  induction inputs with
  | nil => exact ⟨[], rfl, rfl⟩
  | cons input inputs ih =>
    obtain ⟨own, others⟩ := List.forall_mem_cons.mp reach
    obtain ⟨column, brought, values⟩ := ih others
    have here : input[index]? = some input[index] := List.getElem?_eq_getElem own
    refine ⟨input[index] :: column, ?_, ?_⟩
    · rw [List.mapM_cons, here, brought]
      rfl
    · rw [List.map_cons, here, values]
      rfl

theorem inputsOf_length (fed : ∀ packet ∈ packets, packet.2.length = items.length)
    (key : List Value) : ∀ input ∈ inputsOf packets key, input.length = items.length := by
  intro input member
  obtain ⟨packet, chosen, rfl⟩ := List.mem_map.mp member
  exact fed packet (List.mem_of_mem_filter chosen)

/-- The row of a key's group shows what it should. -/
theorem cell_groupOf {groupBy : List String} {index : Nat} {item : Item}
    (keyed : key.length = groupBy.length)
    (fed : ∀ packet ∈ packets, packet.2.length = items.length)
    (known : key ∈ packets.map (·.1)) (column : items[index]? = some item) :
    shown? groupBy packets key index item
      = some ((groupOf items packets key).cell groupBy index item) := by
  have some_ : inputsOf packets key ≠ [] := fun none_ => inputsOf_eq_nil.mp none_ known
  obtain ⟨first, rest, brought⟩ := List.exists_cons_of_ne_nil some_
  have inside : index < items.length := (List.getElem?_eq_some_iff.mp column).1
  have reach : ∀ input ∈ inputsOf packets key, index < input.length :=
    fun input member => (inputsOf_length fed key input member).symm ▸ inside
  cases item with
  | field name =>
    rw [shown?, Group.cell, key_groupOf]
    cases listed : groupBy.findIdx? (Text.same · name) with
    | some place =>
      obtain ⟨bound, -⟩ := List.findIdx?_eq_some_iff_getElem.mp listed
      simp [List.getElem?_eq_getElem (keyed ▸ bound : place < key.length)]
    | none =>
      have own : index < first.length := reach first (brought ▸ .head _)
      rw [first_groupOf, brought]
      simp [List.getElem?_eq_getElem own]
  | aggregate function argument name =>
    obtain ⟨values, found, columns⟩ := exists_column reach
    have started (first : List Value) : (Group.start items key first).accumulators[index]?
        = some (some (Accumulator.start function)) := by
      rw [Group.start, List.getElem?_map, column]
      rfl
    have count : (inputsOf packets key).length = values.length := by
      simpa using congrArg List.length columns
    have held : (groupOf items packets key).accumulators[index]?
        = some (some (values.foldl Accumulator.add (Accumulator.start function))) := by
      rw [groupOf, Group.foldl_add, getElem?_foldl_addTo columns, started]
      rfl
    rw [shown?, found, Group.cell, held, packets_groupOf, count]
    rfl

theorem row_groupOf {groupBy : List String} (keyed : key.length = groupBy.length)
    (fed : ∀ packet ∈ packets, packet.2.length = items.length)
    (known : key ∈ packets.map (·.1)) :
    ((groupOf items packets key).row items groupBy).map some
      = shownRow? items groupBy packets key := by
  rw [Group.row, List.map_map]
  refine List.map_congr_left fun entry member => ?_
  exact (cell_groupOf keyed fed known (List.mem_zipIdx_iff_getElem?.mp member)).symm

theorem row_start (items : List Item) :
    (Group.start items [] (items.map fun _ => .null)).row items [] = items.map idle := by
  have columns := congrArg (List.map idle) (List.zipIdx_map_fst 0 items)
  rw [List.map_map] at columns
  rw [← columns, Group.row]
  refine List.map_congr_left fun entry member => ?_
  obtain ⟨item, index⟩ := entry
  have column : items[index]? = some item := List.mem_zipIdx_iff_getElem?.mp member
  cases item with
  | field name =>
    have first : (items.map fun _ => Value.null)[index]? = some .null := by
      rw [List.getElem?_map, column]
      rfl
    exact congrArg (·.getD .null) first
  | aggregate function argument name =>
    simp [Group.cell, Group.start, column, idle, Accumulator.run]

/-- One row for each key of the packets, in strictly ascending order of the keys, with what the
packets of that key bring and nothing else; without GROUP BY there is a row even for no packet.
That no integer of the keys is also a float of them holds in particular of keys without floats. -/
theorem groupedRows_partition {groupBy : List String} (unmixed : Value.Unmixed among)
    (built : ∀ packet ∈ packets, KeyOf among packet.1)
    (keyed : ∀ packet ∈ packets, packet.1.length = groupBy.length)
    (fed : ∀ packet ∈ packets, packet.2.length = items.length) :
    (∃ keys, KeysOf packets keys ∧ (groupBy ≠ [] ∨ packets ≠ [] →
      (groupedRows items groupBy packets).map (·.map some)
        = keys.map (shownRow? items groupBy packets))) ∧
    (groupBy = [] → packets = [] → groupedRows items groupBy packets = [items.map idle]) := by
  constructor
  · obtain ⟨keys, keysOf, shown⟩ := partitions_groups unmixed items built
    refine ⟨keys, keysOf, fun busy => ?_⟩
    have some_ : (groupBy.isEmpty && (groups items packets).isEmpty) = false := by
      rw [Bool.and_eq_false_iff, List.isEmpty_eq_false_iff, List.isEmpty_eq_false_iff]
      refine busy.imp_right fun pushed none_ => ?_
      obtain ⟨packet, packets, rfl⟩ := List.exists_cons_of_ne_nil pushed
      have first : packet.1 ∈ keys := (keysOf.mem_iff packet.1).mpr (.head _)
      rw [List.map_eq_nil_iff.mp (shown.symm.trans none_)] at first
      cases first
    rw [groupedRows, some_, shown]
    simp only [Bool.false_eq_true, ↓reduceIte, List.map_map]
    refine List.map_congr_left fun key member => ?_
    obtain ⟨packet, pushed, rfl⟩ := List.mem_map.mp ((keysOf.mem_iff key).mp member)
    exact row_groupOf (keyed packet pushed) fed (List.mem_map_of_mem pushed)
  · rintro rfl rfl
    have alone := row_start items
    rw [← alone]
    rfl

/-- Two packets to one port and one to another, the port shown by another spelling than it is
grouped by. -/
theorem groupedRows_partition_ports :
    let items : List Item := [.field "TCP.dport", .aggregate .sum (some "frame.len") "sum"]
    let packets : List (List Value × List Value) := [([.int 443], [.int 443, .int 100]),
      ([.int 80], [.int 80, .int 60]), ([.int 443], [.int 443, .int 40])]
    Value.Unmixed (fun n => n.isFloat = false) ∧
    (∀ packet ∈ packets, KeyOf (fun n => n.isFloat = false) packet.1) ∧
    (∀ packet ∈ packets, packet.1.length = ["tcp.dport"].length) ∧
    (∀ packet ∈ packets, packet.2.length = items.length) ∧
    ∃ keys, KeysOf packets keys ∧
      (groupedRows items ["tcp.dport"] packets).map (·.map some)
        = keys.map (shownRow? items ["tcp.dport"] packets) := by
  intro items packets
  have unmixed : Value.Unmixed fun n => n.isFloat = false := Value.unmixed_of_no_float fun _ => id
  have built : ∀ packet ∈ packets, KeyOf (fun n => n.isFloat = false) packet.1 := by
    simp [packets, KeyOf, Value.BuiltOf, Value.numbers, Value.isFloat]
  have keyed : ∀ packet ∈ packets, packet.1.length = ["tcp.dport"].length := by
    simp [packets]
  have fed : ∀ packet ∈ packets, packet.2.length = items.length := by
    simp [packets, items]
  obtain ⟨keys, keysOf, rows⟩ := (groupedRows_partition unmixed built keyed fed).1
  exact ⟨unmixed, built, keyed, fed, keys, keysOf, rows (.inl (by simp))⟩

end PacketQuery.Rows
