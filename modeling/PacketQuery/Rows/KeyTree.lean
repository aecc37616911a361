/-!
Items in the order of their keys, in a search tree whose nodes hold at most eleven of them. A key
is looked for from the top, in each node from the left, so that it is compared only with the items
on its way. Where the order of the keys is total, the tree is the ordered list of its items; where
it is not, as for a float that equals two integers, the way decides which item a key meets.
-/

namespace PacketQuery.Rows

/-- What hangs in a tree at some height: nothing at height 0, and above it a node of items, each
with what hangs before it, and what hangs after the last one. -/
def Node (α : Type) : (height : Nat) → Type
  | 0 => Unit
  | height + 1 => List (Node α height × α) × Node α height

namespace Node

variable {α : Type}

/-- The items of a node and of the nodes below it. -/
def toList : {height : Nat} → Node α height → List α
  | 0, () => []
  | _ + 1, (branches, last) =>
    branches.flatMap (fun (child, item) => child.toList ++ [item]) ++ last.toList

/-- What a node with a further item becomes: a node, or two with an item between them. -/
inductive Grown (α : Type) (height : Nat)
  | whole (node : Node α height)
  | divided (left : Node α height) (item : α) (right : Node α height)

/-- How many items a node may hold. -/
def capacity : Nat := 11

/-- The place of the item that leaves an overfull node whose newcomer is at `position`: the sixth
or the seventh from the left, and never the newcomer. -/
def middle (position : Nat) : Nat :=
  if position < 5 then 5 else if 6 < position then 6 else 11 - position

/-- A node whose newcomer is at `position`, divided if it is overfull. -/
def divide {height : Nat} (position : Nat) (branches : List (Node α height × α))
    (last : Node α height) : Grown α (height + 1) :=
  match branches.drop (middle position) with
  | (child, item) :: right =>
    -- What hangs before the item that leaves becomes the end of the left half.
    if branches.length ≤ capacity then .whole (branches, last)
    else .divided (branches.take (middle position), child) item (right, last)
  | [] => .whole (branches, last)

/-- A node after `change` of the item that `order` calls equal, or with a new item in its place.
The order says where the key looked for lies from an item. -/
def update (order : α → Ordering) (change : Option α → α) :
    {height : Nat} → Node α height → Grown α height
  | 0, () => .divided () (change none) ()
  | _ + 1, (branches, last) =>
    -- The scan ends at the first item that the key does not follow, whatever stands after it.
    let before := branches.takeWhile (order ·.2 == .gt)
    match branches.drop before.length with
    | (child, item) :: after =>
      if order item == .eq then .whole (before ++ (child, change (some item)) :: after, last)
      else
        match child.update order change with
        | .whole child => .whole (before ++ (child, item) :: after, last)
        | .divided left new right =>
          divide before.length (before ++ (left, new) :: (right, item) :: after) last
    | [] =>
      match last.update order change with
      | .whole last => .whole (branches, last)
      | .divided left new right => divide before.length (before ++ [(left, new)]) right

end Node

/-- A tree of items. -/
structure KeyTree (α : Type) where
  height : Nat
  top : Node α height

namespace KeyTree

variable {α : Type}

def empty : KeyTree α := ⟨0, ()⟩

/-- The items from left to right. -/
def toList (t : KeyTree α) : List α :=
  t.top.toList

/-- The tree after `change` of the item that `order` calls equal, or with a new item. -/
def update (t : KeyTree α) (order : α → Ordering) (change : Option α → α) : KeyTree α :=
  match t.top.update order change with
  | .whole top => ⟨t.height, top⟩
  | .divided left item right => ⟨t.height + 1, [(left, item)], right⟩

end KeyTree

end PacketQuery.Rows
