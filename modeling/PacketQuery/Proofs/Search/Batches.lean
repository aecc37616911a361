import Mathlib.Data.List.Basic
import PacketQuery.Search.Run
/-!
Batches of packets. Where a batch is cut does not show in the hits: they are the first matches
that there is room for. It shows in the problems, since a batch goes on after its last hit; so they
are bounded from both sides, and are exact where the room is not used up.
-/

namespace PacketQuery.Search

/-- As many of the first elements as there is room for. -/
def within {α : Type} (room : Option Nat) (xs : List α) : List α :=
  match room with
  | some n => xs.take n
  | none => xs

@[simp] def Outcome.hit? : Outcome → Option Hit
  | matched hit => some hit
  | _ => none

@[simp] def Outcome.problem? : Outcome → Option Problem
  | unresolved place => some (.noPacket place)
  | _ => none

def hitsOf (outcomes : List Outcome) : List Hit :=
  outcomes.filterMap Outcome.hit?

def problemsOf (outcomes : List Outcome) : List Problem :=
  outcomes.filterMap Outcome.problem?

/-- The hits and problems of packets up to the one that takes the last room. -/
def walk : (room : Option Nat) → List Outcome → List Hit × List Problem
  | _, [] => ([], [])
  | room, outcome :: rest =>
    if room == some 0 then ([], [])
    else
      let later := walk (roomAfter room outcome.hit?.toList) rest
      (outcome.hit?.toList ++ later.1, outcome.problem?.toList ++ later.2)

@[simp] theorem hitsOf_nil : hitsOf [] = [] := rfl

@[simp] theorem hitsOf_cons (outcome : Outcome) (rest : List Outcome) :
    hitsOf (outcome :: rest) = outcome.hit?.toList ++ hitsOf rest := by
  cases outcome <;> rfl

@[simp] theorem hitsOf_append (xs ys : List Outcome) : hitsOf (xs ++ ys) = hitsOf xs ++ hitsOf ys :=
  List.filterMap_append

@[simp] theorem problemsOf_nil : problemsOf [] = [] := rfl

@[simp] theorem problemsOf_cons (outcome : Outcome) (rest : List Outcome) :
    problemsOf (outcome :: rest) = outcome.problem?.toList ++ problemsOf rest := by
  cases outcome <;> rfl

@[simp] theorem problemsOf_append (xs ys : List Outcome) :
    problemsOf (xs ++ ys) = problemsOf xs ++ problemsOf ys :=
  List.filterMap_append

@[simp] theorem within_none {α : Type} (xs : List α) : within none xs = xs := rfl

@[simp] theorem within_some {α : Type} (n : Nat) (xs : List α) : within (some n) xs = xs.take n :=
  rfl

@[simp] theorem roomAfter_none (hits : List Hit) : roomAfter none hits = none := rfl

@[simp] theorem roomAfter_some (n : Nat) (hits : List Hit) :
    roomAfter (some n) hits = some (n - hits.length) := rfl

@[simp] theorem roomAfter_nil (room : Option Nat) : roomAfter room [] = room := by
  cases room <;> rfl

theorem roomAfter_append (room : Option Nat) (xs ys : List Hit) :
    roomAfter room (xs ++ ys) = roomAfter (roomAfter room xs) ys := by
  cases room with
  | none => rfl
  | some n => simp [Nat.sub_sub]

/-- No more room is taken by the hits than by all matches, and no less. -/
@[simp] theorem roomAfter_within (room : Option Nat) (matched : List Hit) :
    roomAfter room (within room matched) = roomAfter room matched := by
  cases room with
  | none => rfl
  | some n =>
    simp only [within_some, roomAfter_some, List.length_take, Option.some.injEq]
    omega

theorem within_append (room : Option Nat) (xs ys : List Hit) :
    within room (xs ++ ys) = within room xs ++ within (roomAfter room xs) ys := by
  cases room with
  | none => rfl
  | some n => exact List.take_append

theorem within_of_left {room : Option Nat} {matched : List Hit}
    (left : roomAfter room matched ≠ some 0) : within room matched = matched := by
  cases room with
  | none => rfl
  | some n =>
    have short : matched.length ≤ n := by
      by_contra long
      exact left (by rw [roomAfter_some, Nat.sub_eq_zero_of_le (by omega)])
    exact List.take_of_length_le short

theorem left_of_append {room : Option Nat} {xs ys : List Hit}
    (left : roomAfter room (xs ++ ys) ≠ some 0) : roomAfter room xs ≠ some 0 := by
  intro used
  rw [roomAfter_append, used] at left
  simp at left

theorem flatten_chunks {α : Type} (size : Nat) (xs : List α) : (chunks size xs).flatten = xs := by
  fun_induction chunks size xs with
  | case1 => rfl
  | case2 xs nonempty ih => rw [List.flatten_cons, ih, List.take_append_drop]

theorem settle_hits (outcomes : List Outcome) (room : Option Nat) :
    (settle room outcomes).1 = within room (hitsOf outcomes) := by
  induction outcomes generalizing room with
  | nil => cases room <;> simp [settle]
  | cons outcome rest ih =>
    cases outcome with
    | rejected => simpa [settle] using ih room
    | unresolved place => simpa [settle] using ih room
    | matched hit =>
      -- without room, the first match ends the batch; with room for n + 1, n is left
      rcases room with _ | n | n
      · simpa [settle] using ih none
      · simp [settle]
      · simpa [settle] using ih (some n)

theorem settle_problems (outcomes : List Outcome) (room : Option Nat) :
    (settle room outcomes).2 <+: problemsOf outcomes := by
  induction outcomes generalizing room with
  | nil => cases room <;> simp [settle]
  | cons outcome rest ih =>
    cases outcome with
    | rejected => simpa [settle] using ih room
    | unresolved place => simpa [settle] using ih room
    | matched hit =>
      rcases room with _ | n | n
      · simpa [settle] using ih none
      · simp [settle]
      · simpa [settle] using ih (some n)

/-- Where room is left in the end, no problem was cut off. -/
theorem settle_of_left {outcomes : List Outcome} {room : Option Nat}
    (left : roomAfter room (hitsOf outcomes) ≠ some 0) :
    (settle room outcomes).2 = problemsOf outcomes := by
  induction outcomes generalizing room with
  | nil => cases room <;> simp [settle]
  | cons outcome rest ih =>
    cases outcome with
    | rejected => simpa [settle] using ih left
    | unresolved place => simpa [settle] using ih left
    | matched hit =>
      rw [hitsOf_cons, roomAfter_append] at left
      rcases room with _ | n | n
      · simpa [settle] using ih left
      · simp at left
      · simpa [settle] using ih left

theorem walk_used (outcomes : List Outcome) : walk (some 0) outcomes = ([], []) := by
  cases outcomes <;> rfl

theorem walk_hits (outcomes : List Outcome) (room : Option Nat) :
    (walk room outcomes).1 = within room (hitsOf outcomes) := by
  induction outcomes generalizing room with
  | nil => cases room <;> simp [walk]
  | cons outcome rest ih =>
    unfold walk
    split
    next used => simp [eq_of_beq used]
    next left =>
      have kept : within room outcome.hit?.toList = outcome.hit?.toList := by
        rcases room with _ | n | n
        · rfl
        · simp at left
        · cases outcome <;> simp
      rw [hitsOf_cons, within_append, kept, ← ih]

theorem walk_append (xs ys : List Outcome) (room : Option Nat) :
    (walk room (xs ++ ys)).2 = (walk room xs).2 ++ (walk (roomAfter room (hitsOf xs)) ys).2 := by
  induction xs generalizing room with
  | nil => simp [walk]
  | cons outcome rest ih =>
    rw [List.cons_append, walk, walk]
    split
    next used =>
      have still : roomAfter room (hitsOf (outcome :: rest)) = some 0 := by
        simp [eq_of_beq used]
      rw [still, walk_used]
      rfl
    next left => simp [ih, roomAfter_append]

theorem walk_problems (outcomes : List Outcome) (room : Option Nat) :
    (walk room outcomes).2 <+: (settle room outcomes).2 := by
  induction outcomes generalizing room with
  | nil => simp [walk]
  | cons outcome rest ih =>
    unfold walk
    split
    next used => exact List.nil_prefix
    next left =>
      cases outcome with
      | rejected => simpa [settle] using ih room
      | unresolved place => simpa [settle] using ih room
      | matched hit =>
        rcases room with _ | n | n
        · simpa [settle] using ih none
        · simp at left
        · simpa [settle] using ih (some n)

/-- Where room is left in the end, a walk finds every problem. -/
theorem walk_of_left {outcomes : List Outcome} {room : Option Nat}
    (left : roomAfter room (hitsOf outcomes) ≠ some 0) :
    (walk room outcomes).2 = problemsOf outcomes := by
  induction outcomes generalizing room with
  | nil => simp [walk]
  | cons outcome rest ih =>
    have start : room ≠ some 0 := by
      intro used
      simp [used] at left
    rw [hitsOf_cons, roomAfter_append] at left
    simp only [walk, beq_iff_eq, if_neg start, ih left, problemsOf_cons]

section Batches

variable (outcome : Place → Outcome)

theorem settleBatches_hits (batches : List (List Place)) (room : Option Nat) :
    (settleBatches outcome room batches).hits
      = within room (hitsOf (batches.flatten.map outcome)) := by
  induction batches generalizing room with
  | nil => cases room <;> simp [settleBatches, Progress.none]
  | cons batch batches ih =>
    have first := settle_hits (batch.map outcome) room
    rw [List.flatten_cons, List.map_append, hitsOf_append, within_append]
    simp only [settleBatches, first, roomAfter_within]
    split
    next used => simp [eq_of_beq used]
    next => simp [Progress.append, ih]

theorem settleBatches_problems (batches : List (List Place)) (room : Option Nat) :
    (settleBatches outcome room batches).problems <+: problemsOf (batches.flatten.map outcome) := by
  induction batches generalizing room with
  | nil => simp [settleBatches, Progress.none]
  | cons batch batches ih =>
    have first := settle_problems (batch.map outcome) room
    have hits := settle_hits (batch.map outcome) room
    rw [List.flatten_cons, List.map_append, problemsOf_append]
    simp only [settleBatches, hits, roomAfter_within]
    split
    next used => exact first.trans (List.prefix_append _ _)
    next left =>
      have whole := settle_of_left (by simpa using left : roomAfter room (hitsOf _) ≠ some 0)
      simpa [Progress.append, whole] using ih _

theorem walk_settleBatches (batches : List (List Place)) (room : Option Nat) :
    (walk room (batches.flatten.map outcome)).2
      <+: (settleBatches outcome room batches).problems := by
  induction batches generalizing room with
  | nil => simp [walk]
  | cons batch batches ih =>
    have first := walk_problems (batch.map outcome) room
    have hits := settle_hits (batch.map outcome) room
    rw [List.flatten_cons, List.map_append, walk_append]
    simp only [settleBatches, hits, roomAfter_within]
    split
    next used => simpa only [eq_of_beq used, walk_used, List.append_nil] using first
    -- a batch that leaves room has told all its problems, as has a walk through it
    next left =>
      have open_ : roomAfter room (hitsOf (batch.map outcome)) ≠ some 0 := by simpa using left
      simpa [Progress.append, settle_of_left open_, walk_of_left open_] using ih _

end Batches

end PacketQuery.Search
