import Mathlib.Algebra.GroupWithZero.Nat
import Mathlib.Data.List.Forall2
import PacketQuery.Proofs.Rows.KeyTree
import PacketQuery.Rows.Grouping
/-!
Every packet is counted in one group. So the counts of the groups add up to the packets, whatever
their keys are and in whatever order the groups are shown.
-/

namespace PacketQuery.Rows

open PacketQuery.Language (Aggregate Item)

/-- A count as a cell shows it. -/
def countCell (count : Nat) : Value :=
  .int (Int64.ofNat count)

/-- Groups of the given numbers of packets. -/
def Counted (counts : List Nat) (gs : List Group) : Prop :=
  gs.map (·.packets) = counts.map UInt64.ofNat

/-- The function of a column, if one computes it. -/
def functionOf? : Item → Option Aggregate
  | .aggregate function _ _ => some function
  | .field _ => none

/-- A group has an accumulator for each column that a function computes. -/
def Group.Fits (items : List Item) (g : Group) : Prop :=
  g.accumulators.map (Option.map Accumulator.function) = items.map functionOf?

variable {items : List Item}

theorem Accumulator.function_add (a : Accumulator) (v : Value) :
    (a.add v).function = a.function := by
  unfold add
  split
  next => rfl
  next => split <;> rfl

namespace Group

theorem functions_addTo (as : List (Option Accumulator)) (vs : List Value) :
    (addTo as vs).map (Option.map Accumulator.function)
      = as.map (Option.map Accumulator.function) := by
  induction as generalizing vs with
  | nil => cases vs <;> rfl
  | cons a as ih =>
    cases vs with
    | nil => rfl
    | cons v vs =>
      rw [addTo, List.map_cons, List.map_cons, ih]
      cases a with
      | none => rfl
      | some a => simp [Accumulator.function_add]

theorem fits_start (items : List Item) (key first : List Value) :
    (start items key first).Fits items := by
  rw [Fits, start, List.map_map]
  refine List.map_congr_left fun item _ => ?_
  cases item <;> rfl

theorem Fits.add {g : Group} (fits : g.Fits items) (inputs : List Value) :
    (g.add inputs).Fits items :=
  (functions_addTo _ _).trans fits

end Group

/-- A further packet changes one group or adds one. -/
theorem updated_addPacket (items : List Item) (groups : KeyTree Group) (key inputs : List Value) :
    Updated (compareKeys key ·.key)
      (fun group => (group.getD (Group.start items key inputs)).add inputs) groups.toList
      (addPacket items groups key inputs).toList :=
  groups.toList_update

/-- A further packet is counted in one group, old or new. -/
theorem counted_addPacket {counts : List Nat} {groups : KeyTree Group}
    (counted : Counted counts groups.toList) (key inputs : List Value) :
    ∃ counts', counts'.sum = counts.sum + 1 ∧
      Counted counts' (addPacket items groups key inputs).toList := by
  have updated := updated_addPacket items groups key inputs
  unfold Counted at counted ⊢
  generalize (addPacket items groups key inputs).toList = after at updated ⊢
  generalize groups.toList = before at updated counted
  cases updated with
  | @changed left right group found =>
    rw [List.map_append, List.map_cons] at counted
    obtain ⟨first, rest, rfl, before, counted⟩ := List.map_eq_append_iff.mp counted.symm
    obtain ⟨count, last, rfl, here, after⟩ := List.map_eq_cons_iff.mp counted
    refine ⟨first ++ (count + 1) :: last, ?_, ?_⟩
    · simp only [List.sum_append, List.sum_cons]
      omega
    · rw [List.map_append, List.map_cons, List.map_append, List.map_cons, before, after]
      simp [Group.add, ← here]
  | added left right _ _ =>
    rw [List.map_append] at counted
    obtain ⟨first, last, rfl, before, after⟩ := List.map_eq_append_iff.mp counted.symm
    refine ⟨first ++ 1 :: last, ?_, ?_⟩
    · simp only [List.sum_append, List.sum_cons]
      omega
    · rw [List.map_append, List.map_cons, List.map_append, List.map_cons, before, after]
      rfl

theorem fits_addPacket {groups : KeyTree Group} (fits : ∀ g ∈ groups.toList, g.Fits items)
    (key inputs : List Value) :
    ∀ g ∈ (addPacket items groups key inputs).toList, g.Fits items := by
  have updated := updated_addPacket items groups key inputs
  generalize (addPacket items groups key inputs).toList = after at updated ⊢
  generalize groups.toList = before at updated fits
  cases updated with
  | changed left right found =>
    simp only [List.forall_mem_append, List.forall_mem_cons] at fits ⊢
    exact ⟨fits.1, fits.2.1.add inputs, fits.2.2⟩
  | added left right _ _ =>
    simp only [List.forall_mem_append, List.forall_mem_cons] at fits ⊢
    exact ⟨fits.1, (Group.fits_start items key inputs).add inputs, fits.2⟩

/-- Groups go on fitting the columns and counting each packet once. -/
theorem foldl_addPacket (packets : List (List Value × List Value)) {tree : KeyTree Group}
    {counts : List Nat} (fits : ∀ g ∈ tree.toList, g.Fits items)
    (counted : Counted counts tree.toList) :
    let last := packets.foldl (fun gs (key, inputs) => addPacket items gs key inputs) tree
    (∀ g ∈ last.toList, g.Fits items) ∧
      ∃ counts', counts'.sum = counts.sum + packets.length ∧ Counted counts' last.toList := by
  induction packets generalizing tree counts with
  | nil => exact ⟨fits, counts, rfl, counted⟩
  | cons packet packets ih =>
    obtain ⟨counts', sum, counted'⟩ := counted_addPacket counted packet.1 packet.2
    obtain ⟨fits', counts'', sum', counted''⟩ :=
      ih (fits_addPacket fits packet.1 packet.2) counted'
    refine ⟨fits', counts'', ?_, counted''⟩
    rw [sum', sum, List.length_cons]
    omega

/-- The groups of packets fit the columns, and count each packet once. -/
theorem groups_spec (items : List Item) (packets : List (List Value × List Value)) :
    (∀ g ∈ groups items packets, g.Fits items) ∧
      ∃ counts, counts.sum = packets.length ∧ Counted counts (groups items packets) := by
  have none_ : ∀ g ∈ (KeyTree.empty : KeyTree Group).toList, g.Fits items := nofun
  have zero : Counted [] (KeyTree.empty : KeyTree Group).toList := rfl
  obtain ⟨fits, counts, sum, counted⟩ := foldl_addPacket packets none_ zero
  exact ⟨fits, counts, by simpa using sum, counted⟩

/-- The cell of a column of counts. -/
theorem Group.row_count {g : Group} (fits : g.Fits items) (groupBy : List String) {index : Nat}
    {argument : Option String} {name : String}
    (column : items[index]? = some (.aggregate .count argument name)) :
    (g.row items groupBy)[index]? = some (.int g.packets.toInt64) := by
  have function := congrArg (·[index]?) fits
  simp only [List.getElem?_map, column, Option.map_some, functionOf?] at function
  have shown : (g.row items groupBy)[index]?
      = some (g.cell groupBy index (.aggregate .count argument name)) := by
    simp [row, List.getElem?_zipIdx, column]
  rw [shown, cell]
  cases held : g.accumulators[index]? with
  | none => simp [held] at function
  | some held_ =>
    cases held_ with
    | none => simp [held] at function
    | some a =>
      have count : a.function = .count := by simpa [held] using function
      simp [Accumulator.finish, count]

theorem cells_of_counted {gs : List Group} {counts : List Nat} (fits : ∀ g ∈ gs, g.Fits items)
    (counted : Counted counts gs) (groupBy : List String) {index : Nat}
    {argument : Option String} {name : String}
    (column : items[index]? = some (.aggregate .count argument name)) :
    (gs.map fun g => g.row items groupBy).map (·[index]?)
      = counts.map fun count => some (countCell count) := by
  have values := congrArg (List.map fun n : UInt64 => some (Value.int n.toInt64)) counted
  rw [List.map_map, List.map_map] at values
  rw [List.map_map]
  refine Eq.trans (List.map_congr_left fun g member => ?_) values
  exact Group.row_count (fits g member) groupBy column

/-- The counts that the rows show add up to the packets. -/
theorem count_cells (items : List Item) (groupBy : List String)
    (packets : List (List Value × List Value)) {index : Nat} {argument : Option String}
    {name : String} (column : items[index]? = some (.aggregate .count argument name)) :
    ∃ counts : List Nat, counts.sum = packets.length ∧
      (groupedRows items groupBy packets).map (·[index]?)
        = counts.map fun count => some (countCell count) := by
  obtain ⟨fits, counts, sum, counted⟩ := groups_spec items packets
  unfold groupedRows
  dsimp only
  split
  next alone =>
    -- the group shown for no packet counts none
    rw [Bool.and_eq_true, List.isEmpty_iff, List.isEmpty_iff] at alone
    have none_ : counts = [] := by
      rw [Counted, alone.2] at counted
      exact List.map_eq_nil_iff.mp counted.symm
    rw [none_] at sum
    have fits' (first : List Value) : ∀ g ∈ [Group.start items [] first], g.Fits items :=
      List.forall_mem_singleton.mpr (Group.fits_start items [] first)
    have counted' (first : List Value) : Counted [0] [Group.start items [] first] := rfl
    exact ⟨[0], sum, cells_of_counted (fits' _) (counted' _) groupBy column⟩
  next => exact ⟨counts, sum, cells_of_counted fits counted groupBy column⟩

end PacketQuery.Rows
