/-!
Orderings of lists and stable sorting by a comparison.
-/

namespace PacketQuery.Order

/-- The first difference decides; of a list and its continuation the shorter comes first. -/
def lexicographic {α : Type} (cmp : α → α → Ordering) : List α → List α → Ordering
  | [], [] => .eq
  | [], _ :: _ => .lt
  | _ :: _, [] => .gt
  | a :: as, b :: bs => (cmp a b).then (lexicographic cmp as bs)

/-- The order of texts by code point. -/
def text (a b : String) : Ordering :=
  lexicographic (fun c d => compare c.toNat d.toNat) a.toList b.toList

/-- The order of byte strings. -/
def bytes (a b : List UInt8) : Ordering :=
  lexicographic (fun x y => compare x.toNat y.toNat) a b

/-- Sorted by `cmp`; elements that compare equal keep their order. -/
def sort {α : Type} (cmp : α → α → Ordering) (xs : List α) : List α :=
  xs.mergeSort fun a b => cmp a b != .gt

/-- `x` put into the strictly ascending texts `xs`, unless it is there. -/
def insertText (x : String) : List String → List String
  | [] => [x]
  | y :: ys =>
    match text x y with
    | .lt => x :: y :: ys
    | .eq => y :: ys
    | .gt => y :: insertText x ys

end PacketQuery.Order
