import PacketQuery.Rows.Accumulator
import PacketQuery.Rows.KeyTree
/-!
Groups of packets with equal keys, kept in the order of the keys, and the row that each gives.
-/

namespace PacketQuery.Rows

open PacketQuery.Language (Item)

/-- The order of keys: value by value, and of a key and its continuation the shorter first. -/
def compareKeys (a b : List Value) : Ordering :=
  Order.lexicographic Value.order a b

structure Group where
  key : List Value
  packets : UInt64
  /-- The inputs of the first packet. -/
  first : List Value
  /-- One accumulator for each column computed by a function. -/
  accumulators : List (Option Accumulator)
  deriving Repr

namespace Group

/-- A group without packets, whose first packet will bring `first`. -/
def start (items : List Item) (key first : List Value) : Group where
  key := key
  packets := 0
  first := first
  accumulators := items.map fun
    | .aggregate function _ _ => some (.start function)
    | .field _ => none

/-- With a packet that brings the given inputs; an accumulator without input stays. -/
def addTo : List (Option Accumulator) → List Value → List (Option Accumulator)
  | a :: as, v :: vs => a.map (·.add v) :: addTo as vs
  | as, _ => as

/-- The group with a further packet. -/
def add (g : Group) (inputs : List Value) : Group :=
  { g with packets := g.packets + 1, accumulators := addTo g.accumulators inputs }

/-- The cell of one column, which is the one at `index`. A field that is part of the key shows
its part of the key, any other the value of the first packet. -/
def cell (g : Group) (groupBy : List String) (index : Nat) : Item → Value
  | .field name =>
    match (groupBy.findIdx? (Text.same · name)).bind (g.key[·]?) with
    | some v => v
    | none => (g.first[index]?).getD .null
  | .aggregate .. =>
    match (g.accumulators[index]?).bind id with
    | some a => a.finish g.packets
    | none => .null

def row (g : Group) (items : List Item) (groupBy : List String) : List Value :=
  items.zipIdx.map fun (item, index) => g.cell groupBy index item

end Group

/-- The groups with a further packet, which goes to the group of its key or opens one. -/
def addPacket (items : List Item) (groups : KeyTree Group) (key inputs : List Value) :
    KeyTree Group :=
  groups.update (compareKeys key ·.key) fun group =>
    (group.getD (Group.start items key inputs)).add inputs

/-- The groups of packets given by their keys and inputs, in the order of the keys. -/
def groups (items : List Item) (packets : List (List Value × List Value)) : List Group :=
  (packets.foldl (fun gs (key, inputs) => addPacket items gs key inputs) .empty).toList

/-- The row of every group. Where nothing is grouped by, there is one row even for no packet. -/
def groupedRows (items : List Item) (groupBy : List String)
    (packets : List (List Value × List Value)) : List (List Value) :=
  let gs := groups items packets
  let shown := if groupBy.isEmpty && gs.isEmpty
    then [Group.start items [] (items.map fun _ => .null)] else gs
  shown.map fun g => g.row items groupBy

end PacketQuery.Rows
