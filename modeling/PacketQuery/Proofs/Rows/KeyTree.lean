import Mathlib.Data.List.Basic
import PacketQuery.Rows.KeyTree
/-!
What an update does to the items of a tree, whether or not the order of its keys is total: one item
that the order calls equal is changed where it stands, or a new one is put between two others, of
which the order passes the left and not the right. Where the order cuts the items in two, it passes
all that are left of the new one.
-/

namespace PacketQuery.Rows

variable {α : Type} {order : α → Ordering} {change : Option α → α}

/-- The items before and after an update. -/
inductive Updated (order : α → Ordering) (change : Option α → α) : List α → List α → Prop
  | changed (left right : List α) {item : α} (found : order item = .eq) :
      Updated order change (left ++ item :: right) (left ++ change (some item) :: right)
  | added (left right : List α) (passed : ∀ item ∈ left.getLast?, order item = .gt)
      (ahead : ∀ item ∈ right.head?, order item = .lt) :
      Updated order change (left ++ right) (left ++ change none :: right)

theorem Updated.between {before after left right : List α} (h : Updated order change before after)
    (passed : ∀ item ∈ left.getLast?, order item = .gt)
    (ahead : ∀ item ∈ right.head?, order item = .lt) :
    Updated order change (left ++ before ++ right) (left ++ after ++ right) := by
  cases h with
  | changed first last found => simpa using changed (left ++ first) (last ++ right) found
  | added first last passed' ahead' =>
    have passed'' : ∀ item ∈ (left ++ first).getLast?, order item = .gt := by
      rw [List.getLast?_append]
      cases nearest : first.getLast? with
      | none => exact passed
      | some item => simpa [nearest] using passed'
    have ahead'' : ∀ item ∈ (last ++ right).head?, order item = .lt := by
      rw [List.head?_append]
      cases nearest : last.head? with
      | none => exact ahead
      | some item => simpa [nearest] using ahead'
    simpa using added (left ++ first) (last ++ right) passed'' ahead''

/-- Of any two items the first is passed or the second lies ahead. -/
def Cut (order : α → Ordering) (items : List α) : Prop :=
  items.Pairwise fun x y => order x = .gt ∨ order y = .lt

theorem Cut.passed {left : List α} (cut : Cut order left)
    (passed : ∀ item ∈ left.getLast?, order item = .gt) : ∀ item ∈ left, order item = .gt := by
  obtain rfl | ⟨items, last, rfl⟩ := left.eq_nil_or_concat'
  · nofun
  · have gt : order last = .gt := passed last (by simp)
    obtain ⟨-, -, across⟩ := List.pairwise_append.mp cut
    refine List.forall_mem_append.mpr ⟨fun item inside => ?_, List.forall_mem_singleton.mpr gt⟩
    refine (across item inside last (List.mem_singleton_self last)).resolve_right ?_
    rw [gt]
    nofun

theorem Cut.ahead {right : List α} (cut : Cut order right)
    (ahead : ∀ item ∈ right.head?, order item = .lt) : ∀ item ∈ right, order item = .lt := by
  cases right with
  | nil => nofun
  | cons first items =>
    have lt : order first = .lt := ahead first rfl
    refine List.forall_mem_cons.mpr ⟨lt, fun item inside => ?_⟩
    refine ((List.pairwise_cons.mp cut).1 item inside).resolve_left ?_
    rw [lt]
    nofun

namespace Node

variable {height : Nat}

/-- The items of what a node has become. -/
def Grown.toList : Grown α height → List α
  | whole node => node.toList
  | divided left item right => left.toList ++ item :: right.toList

/-- The items of branches, each child before its item. -/
def branchItems (branches : List (Node α height × α)) : List α :=
  branches.flatMap fun (child, item) => child.toList ++ [item]

theorem toList_node (branches : List (Node α height × α)) (last : Node α height) :
    @toList α (height + 1) (branches, last) = branchItems branches ++ last.toList :=
  rfl

@[simp] theorem branchItems_nil : branchItems ([] : List (Node α height × α)) = [] :=
  rfl

@[simp] theorem branchItems_cons (child : Node α height) (item : α)
    (branches : List (Node α height × α)) :
    branchItems ((child, item) :: branches) = child.toList ++ item :: branchItems branches := by
  simp [branchItems]

@[simp] theorem branchItems_append (xs ys : List (Node α height × α)) :
    branchItems (xs ++ ys) = branchItems xs ++ branchItems ys :=
  List.flatMap_append

/-- The last of the items of branches is the item of the last branch. -/
theorem getLast?_branchItems {p : α → Prop} {branches : List (Node α height × α)}
    (items : ∀ branch ∈ branches, p branch.2) :
    ∀ item ∈ (branchItems branches).getLast?, p item := by
  obtain rfl | ⟨branches, branch, rfl⟩ := branches.eq_nil_or_concat'
  · nofun
  · obtain ⟨child, item⟩ := branch
    have last : (branchItems (branches ++ [(child, item)])).getLast? = some item := by
      simp [List.getLast?_append]
    rw [last]
    rintro _ ⟨⟩
    exact items (child, item) (by simp)

/-- A key's place among branches: after those whose items it passes. -/
theorem exists_place (order : α → Ordering) (branches : List (Node α height × α)) :
    ∃ before, branches.takeWhile (order ·.2 == .gt) = before ∧
      branches = before ++ branches.drop before.length ∧
      (∀ branch ∈ before, order branch.2 = .gt) ∧
      ∀ branch ∈ (branches.drop before.length).head?, order branch.2 ≠ .gt := by
  have halves := List.takeWhile_append_dropWhile (p := (order ·.2 == .gt)) (l := branches)
  have stop := List.head?_dropWhile_not (order ·.2 == .gt) branches
  have passed := List.all_takeWhile (p := (order ·.2 == .gt)) (l := branches)
  generalize branches.takeWhile (order ·.2 == .gt) = before at *
  generalize branches.dropWhile (order ·.2 == .gt) = rest at *
  subst halves
  refine ⟨before, rfl, ?_⟩
  rw [List.drop_left]
  refine ⟨rfl, fun branch inside => ?_, fun branch first => ?_⟩
  · exact eq_of_beq (List.all_eq_true.mp passed branch inside)
  · rw [first] at stop
    exact ne_of_beq_false stop

/-- Dividing a node moves no item. -/
theorem toList_divide (position : Nat) (branches : List (Node α height × α))
    (last : Node α height) :
    (divide position branches last).toList = branchItems branches ++ last.toList := by
  unfold divide
  split
  next child item right cut =>
    split
    next => rfl
    next =>
      have parts := List.take_append_drop (middle position) branches
      rw [cut] at parts
      have items := congrArg branchItems parts
      rw [branchItems_append, branchItems_cons] at items
      rw [← items]
      simp only [Grown.toList, toList_node, List.append_assoc, List.cons_append]
  next => rfl

theorem toList_update (node : Node α height) :
    Updated order change node.toList (node.update order change).toList := by
  induction height with
  | zero => exact .added [] [] nofun nofun
  | succ height ih =>
    obtain ⟨branches, last⟩ := node
    obtain ⟨before, taken, parts, passed, ahead⟩ := exists_place order branches
    rw [toList_node, update, taken]
    split
    next child item after cut =>
      have stop : order item ≠ .gt := ahead (child, item) (by rw [cut]; rfl)
      rw [cut] at parts
      have items := congrArg branchItems parts
      rw [branchItems_append, branchItems_cons] at items
      rw [items]
      split
      next found =>
        have here : Updated order change _ _ :=
          .changed (branchItems before ++ child.toList) (branchItems after ++ last.toList)
            (eq_of_beq found)
        simpa [Grown.toList, toList_node] using here
      next other =>
        have lt : order item = .lt := by
          cases side : order item with
          | lt => rfl
          | eq => exact absurd (beq_of_eq side) other
          | gt => exact absurd side stop
        have next : ∀ near ∈ (item :: branchItems after ++ last.toList).head?,
            order near = .lt := by
          rintro _ ⟨⟩
          exact lt
        -- The key stays between the items around the child, however the child grows.
        have below := (ih child).between (getLast?_branchItems passed) next
        cases grown : child.update order change with
        | whole child =>
          rw [grown] at below
          simpa [Grown.toList, toList_node] using below
        | divided left new right =>
          rw [grown] at below
          rw [toList_divide]
          simpa [Grown.toList] using below
    next cut =>
      rw [cut, List.append_nil] at parts
      subst parts
      have next : ∀ near ∈ ([] : List α).head?, order near = .lt := nofun
      have below := (ih last).between (getLast?_branchItems passed) next
      cases grown : last.update order change with
      | whole last =>
        rw [grown] at below
        simpa [Grown.toList, toList_node] using below
      | divided left new right =>
        rw [grown] at below
        rw [toList_divide]
        simpa [Grown.toList] using below

end Node

theorem KeyTree.toList_update (t : KeyTree α) :
    Updated order change t.toList (t.update order change).toList := by
  have updated : Updated order change t.top.toList (t.top.update order change).toList :=
    Node.toList_update t.top
  unfold KeyTree.update
  cases grown : t.top.update order change with
  | whole top =>
    rw [grown] at updated
    exact updated
  | divided left item right =>
    rw [grown] at updated
    have items : (⟨t.height + 1, [(left, item)], right⟩ : KeyTree α).toList
        = left.toList ++ item :: right.toList := by
      simp [KeyTree.toList, Node.toList]
    rw [items]
    exact updated

end PacketQuery.Rows
