import PacketQuery.Proofs.Number.Rounding
import PacketQuery.Proofs.Order
import PacketQuery.Value.Order
/-!
The order for sorting as a ranking. It ranks values of different kinds by their kinds, and numbers
by their doubles, but two integers by themselves. So it is one ranking of all values built of given
numbers as long as no two of the integers are rounded to one of the floats, which would then stand
in two places.
-/

namespace PacketQuery.Value

/-- The integers and floats of a value, the bounds of ranges included. -/
def numbers : Value → List Value
  | int n => [int n]
  | float x => [float x]
  | range low high => low.numbers ++ high.numbers
  | _ => []

/-- All numbers of a value are among the given ones. -/
def BuiltOf (among : Value → Prop) (v : Value) : Prop :=
  ∀ n ∈ v.numbers, among n

/-- No two of the integers become the same one of the floats. -/
def Unblurred (among : Value → Prop) : Prop :=
  ∀ i j x, among (int i) → among (int j) → among (float x) →
    Number.ofInt64 i = x → Number.ofInt64 j = x → i = j

/-- No integer of them becomes one of the floats. -/
def Unmixed (among : Value → Prop) : Prop :=
  ∀ i x, among (int i) → among (float x) → Number.ofInt64 i ≠ x

variable {among : Value → Prop}

theorem Unmixed.unblurred (unmixed : Unmixed among) : Unblurred among :=
  fun i _ x first _ third same _ => absurd same (unmixed i x first third)

theorem unmixed_of_no_float (no_float : ∀ n, among n → n.isFloat = false) : Unmixed among :=
  fun _ x _ float => nomatch no_float (.float x) float

theorem builtOf_range {low high : Value} :
    (range low high).BuiltOf among ↔ low.BuiltOf among ∧ high.BuiltOf among :=
  List.forall_mem_append

theorem order_self (a : Value) : a.order a = .eq := by
  induction a with
  | text s => exact (Order.text_eq_eq s s).mpr rfl
  | bytes bs => exact (Order.bytes_eq_eq bs bs).mpr rfl
  | range low high first second => rw [order, first, second]; rfl
  | bool b => exact Nat.compare_eq_eq.mpr rfl
  | int n => exact Int.compare_eq_eq.mpr rfl
  | float x => exact Int.compare_eq_eq.mpr rfl
  | _ => rfl

theorem order_of_rank_ne {a b : Value} (ranks : a.rank ≠ b.rank) :
    a.order b = compare a.rank b.rank := by
  cases a <;> cases b <;> first | rfl | exact absurd rfl ranks

theorem rank_eq_of_order {a b : Value} (same : a.order b = .eq) : a.rank = b.rank := by
  by_contra ranks
  rw [order_of_rank_ne ranks] at same
  exact ranks (Nat.compare_eq_eq.mp same)

theorem order_swap (a b : Value) : b.order a = (a.order b).swap := by
  induction a generalizing b with
  | null => cases b <;> rfl
  | bool x =>
    cases b with
    | bool y => exact (Nat.compare_swap _ _).symm
    | _ => rfl
  | int i =>
    cases b with
    | int | float => exact (Int.compare_swap _ _).symm
    | _ => rfl
  | float x =>
    cases b with
    | int | float => exact (Int.compare_swap _ _).symm
    | _ => rfl
  | text s =>
    cases b with
    | text t => exact Order.text_swap s t
    | _ => rfl
  | bytes bs =>
    cases b with
    | bytes cs => exact Order.bytes_swap bs cs
    | _ => rfl
  | range low high first second =>
    cases b with
    | range low' high' => rw [order, order, Ordering.swap_then, first, second]
    | _ => rfl
  | any => cases b <;> rfl

/-- Values of different kinds are ranked by their kinds. -/
theorem consistent_of_rank {a b c : Value} (ranks : ¬ (a.rank = b.rank ∧ b.rank = c.rank)) :
    Order.Consistent (a.order b) (b.order c) (a.order c) := by
  have ranked {v w : Value} (apart : compare v.rank w.rank ≠ .eq) :
      v.order w = compare v.rank w.rank :=
    order_of_rank_ne fun same => apart (Nat.compare_eq_eq.mpr same)
  refine (Order.consistent_of_transCmp a.rank b.rank c.rank).refine ranked ranked ranked ?_
  rwa [Nat.compare_eq_eq, Nat.compare_eq_eq]

/-- Two integers and a float are ranked alike by the integers' values and by their doubles, unless
the integers become that float both. -/
theorem consistent_doubles {i j : Int64} {x : Float}
    (sharp : Number.ofInt64 i = x → Number.ofInt64 j = x → i = j) :
    Order.Consistent ((int i).order (int j)) ((int j).order (float x))
      ((int i).order (float x)) := by
  have below := @Number.totalKey_ofInt64_mono i j
  have above := @Number.totalKey_ofInt64_mono j i
  rw [← Number.totalKey_inj, ← Number.totalKey_inj, ← Int64.toInt_inj] at sharp
  simp only [order, Number.totalOrder]
  generalize Number.totalKey (Number.ofInt64 i) = m at *
  generalize Number.totalKey (Number.ofInt64 j) = n at *
  generalize Number.totalKey x = k at *
  rcases Int.lt_trichotomy i.toInt j.toInt with lt | eq | gt
  · rw [Int.compare_eq_lt.mpr lt]
    refine ⟨nofun, fun same => ?_, fun same => ?_⟩
    · have second := Int.compare_eq_eq.mp same
      exact Int.compare_eq_lt.mpr (by omega)
    · have second := Int.compare_eq_lt.mp same.symm
      exact Int.compare_eq_lt.mpr (by omega)
  · have keys : m = n := by omega
    rw [Int.compare_eq_eq.mpr eq, keys]
    exact ⟨fun _ => rfl, id, Eq.symm⟩
  · rw [Int.compare_eq_gt.mpr gt]
    refine ⟨nofun, fun same => ?_, fun same => ?_⟩
    · have second := Int.compare_eq_eq.mp same
      exact Int.compare_eq_gt.mpr (by omega)
    · have second := Int.compare_eq_gt.mp same.symm
      exact Int.compare_eq_gt.mpr (by omega)

/-- Numbers are ranked by their doubles, and two integers by their values. -/
theorem consistent_numbers (unblurred : Unblurred among) {a b c : Value} (first : a.BuiltOf among)
    (second : b.BuiltOf among) (third : c.BuiltOf among) (number : a.rank = 2)
    (number' : b.rank = 2) (number'' : c.rank = 2) :
    Order.Consistent (a.order b) (b.order c) (a.order c) := by
  have inside {n v : Value} (built : v.BuiltOf among) (self : v.numbers = [n]) : among n :=
    built n (self ▸ List.mem_singleton_self n)
  have keys (x y z : Int) : Order.Consistent (compare x y) (compare y z) (compare x z) :=
    Order.consistent_of_transCmp x y z
  cases a with
  | int i =>
    cases b with
    | int j =>
      cases c with
      | int k => exact keys i.toInt j.toInt k.toInt
      | float z =>
        have sharp := unblurred i j z (inside first rfl) (inside second rfl) (inside third rfl)
        exact consistent_doubles sharp
      | _ => cases number''
    | float y =>
      cases c with
      | int k =>
        have sharp := unblurred i k y (inside first rfl) (inside third rfl) (inside second rfl)
        rw [order_swap (int k) (float y)]
        exact (consistent_doubles sharp).swap_right
      | float z => exact keys _ (Number.totalKey y) (Number.totalKey z)
      | _ => cases number''
    | _ => cases number'
  | float x =>
    cases b with
    | int j =>
      cases c with
      | int k =>
        have sharp := unblurred j k x (inside second rfl) (inside third rfl) (inside first rfl)
        rw [order_swap (int j) (float x), order_swap (int k) (float x)]
        exact (consistent_doubles sharp).swap_right.swap_left
      | float z => exact keys (Number.totalKey x) _ (Number.totalKey z)
      | _ => cases number''
    | float y =>
      cases c with
      | int k => exact keys (Number.totalKey x) (Number.totalKey y) _
      | float z => exact keys (Number.totalKey x) (Number.totalKey y) (Number.totalKey z)
      | _ => cases number''
    | _ => cases number'
  | _ => cases number

/-- Among numbers that do not blur, the values have one ranking. -/
theorem order_consistent (unblurred : Unblurred among) {a b c : Value} (first : a.BuiltOf among)
    (second : b.BuiltOf among) (third : c.BuiltOf among) :
    Order.Consistent (a.order b) (b.order c) (a.order c) := by
  have equal : Order.Consistent .eq .eq .eq := ⟨fun _ => rfl, fun _ => rfl, fun _ => rfl⟩
  have places (k m n : Nat) : Order.Consistent (compare k m) (compare m n) (compare k n) :=
    Order.consistent_of_transCmp k m n
  induction a generalizing b c with
  | null =>
    cases b with
    | null =>
      cases c with
      | null => exact equal
      | _ => exact consistent_of_rank (by simp [rank])
    | _ => exact consistent_of_rank (by simp [rank])
  | bool x =>
    cases b with
    | bool y =>
      cases c with
      | bool z => exact places x.toNat y.toNat z.toNat
      | _ => exact consistent_of_rank (by simp [rank])
    | _ => exact consistent_of_rank (by simp [rank])
  | int | float =>
    -- Integers and floats share a rank: they are the one place where kinds mix.
    by_cases numbers : b.rank = 2 ∧ c.rank = 2
    · exact consistent_numbers unblurred first second third rfl numbers.1 numbers.2
    · refine consistent_of_rank fun same => numbers ⟨same.1.symm, ?_⟩
      exact (same.1.trans same.2).symm
  | text s =>
    cases b with
    | text t =>
      cases c with
      | text u => exact Order.consistent_lexicographic fun _ _ _ _ _ _ => places ..
      | _ => exact consistent_of_rank (by simp [rank])
    | _ => exact consistent_of_rank (by simp [rank])
  | bytes bs =>
    cases b with
    | bytes cs =>
      cases c with
      | bytes ds => exact Order.consistent_lexicographic fun _ _ _ _ _ _ => places ..
      | _ => exact consistent_of_rank (by simp [rank])
    | _ => exact consistent_of_rank (by simp [rank])
  | range low high lows highs =>
    cases b with
    | range low' high' =>
      cases c with
      | range low'' high'' =>
        rw [builtOf_range] at first second third
        exact (lows first.1 second.1 third.1).then (highs first.2 second.2 third.2)
      | _ => exact consistent_of_rank (by simp [rank])
    | _ => exact consistent_of_rank (by simp [rank])
  | any =>
    cases b with
    | any =>
      cases c with
      | any => exact equal
      | _ => exact consistent_of_rank (by simp [rank])
    | _ => exact consistent_of_rank (by simp [rank])

/-- Integers of 53 bits are their doubles. -/
theorem unblurred_of_small (small : ∀ n, among (int n) → n.toInt.natAbs ≤ 2 ^ 53) :
    Unblurred among := by
  intro i j x first second _ same same'
  exact (Number.ofInt64_inj (small i first) (small j second)).mp (same.trans same'.symm)

/-- A float between two unequal integers that it equals both shows the blur. -/
theorem unblurred_of_transitive (transitive : Order.TransitiveOn order (BuiltOf among)) :
    Unblurred among := by
  have self {n : Value} (number : n.numbers = [n]) (inside : among n) : n.BuiltOf among := by
    rw [BuiltOf, number]
    exact List.forall_mem_singleton.mpr inside
  have meets {n : Int64} {x : Float} (same : Number.ofInt64 n = x) :
      (int n).order (float x) = .eq ∧ (float x).order (int n) = .eq := by
    subst same
    exact ⟨Int.compare_eq_eq.mpr rfl, Int.compare_eq_eq.mpr rfl⟩
  have below {i j : Int64} {x : Float} (first : among (int i)) (second : among (int j))
      (third : among (float x)) (same : Number.ofInt64 i = x) (same' : Number.ofInt64 j = x) :
      i.toInt ≤ j.toInt := by
    have le := transitive (int i) (float x) (int j) (self rfl first) (self rfl third)
      (self rfl second) (by rw [(meets same).1]; nofun) (by rw [(meets same').2]; nofun)
    rwa [order, Int.compare_ne_gt] at le
  intro i j x first second third same same'
  exact Int64.toInt_inj.mp (Int.le_antisymm (below first second third same same')
    (below second first third same' same))

/-- Where no integer is also a float, only equal values are ranked equal. -/
theorem order_eq_eq (unmixed : Unmixed among) {a b : Value} (first : a.BuiltOf among)
    (second : b.BuiltOf among) : a.order b = .eq ↔ a = b := by
  refine ⟨fun same => ?_, fun same => same ▸ order_self a⟩
  have ranks := rank_eq_of_order same
  induction a generalizing b with
  | null =>
    cases b with
    | null => rfl
    | _ => cases ranks
  | bool x =>
    cases b with
    | bool y => cases x <;> cases y <;> first | rfl | cases same
    | _ => cases ranks
  | int i =>
    cases b with
    | int j => exact congrArg int (Int64.toInt_inj.mp (Int.compare_eq_eq.mp same))
    | float y =>
      have double := Number.totalKey_inj.mp (Int.compare_eq_eq.mp same)
      exact absurd double (unmixed i y (first _ (.head _)) (second _ (.head _)))
    | _ => cases ranks
  | float x =>
    cases b with
    | int j =>
      have double := Number.totalKey_inj.mp (Int.compare_eq_eq.mp same)
      exact absurd double.symm (unmixed j x (second _ (.head _)) (first _ (.head _)))
    | float y => exact congrArg float (Number.totalKey_inj.mp (Int.compare_eq_eq.mp same))
    | _ => cases ranks
  | text s =>
    cases b with
    | text t => exact congrArg text ((Order.text_eq_eq s t).mp same)
    | _ => cases ranks
  | bytes bs =>
    cases b with
    | bytes cs => exact congrArg bytes ((Order.bytes_eq_eq bs cs).mp same)
    | _ => cases ranks
  | range low high lows highs =>
    cases b with
    | range low' high' =>
      rw [builtOf_range] at first second
      obtain ⟨low_eq, high_eq⟩ := Ordering.then_eq_eq.mp same
      rw [lows first.1 second.1 low_eq (rank_eq_of_order low_eq),
        highs first.2 second.2 high_eq (rank_eq_of_order high_eq)]
    | _ => cases ranks
  | any =>
    cases b with
    | any => rfl
    | _ => cases ranks

end PacketQuery.Value
