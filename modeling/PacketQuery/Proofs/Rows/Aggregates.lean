import Mathlib
import PacketQuery.Proofs.Rows.Counting
import PacketQuery.Rows.Accumulator
/-!
Functions over a column of integers. Among integers that are not negative a sum leaves 64 bits once
and for all when the numbers added so far do; so the sum is exact up to the greatest integer and a
float above it, in whatever order the packets come. The least and the greatest depend on the values
alone.
-/

namespace PacketQuery.Rows

open PacketQuery.Language (Aggregate)

/-- Every input is null or an integer that is not negative. -/
def IsCountable (inputs : List Value) : Prop :=
  ∀ v ∈ inputs, v = .null ∨ ∃ n : Int64, v = .int n ∧ 0 ≤ n.toInt

/-- The number that an input adds to a sum of integers. -/
def addend : Value → Int
  | .int n => n.toInt
  | _ => 0

/-- The exact sum of the integers. -/
def totalOf (inputs : List Value) : Int :=
  (inputs.map addend).sum

/-! ### Sums -/

/-- The sum stands for `total`: exactly where that fits 64 bits, and as a float above. -/
structure Sum.StandsFor (s : Sum) (total : Int) : Prop where
  exact_ : total ≤ Int64.maxValue.toInt → ∃ n : Int64, s = .int n ∧ n.toInt = total
  widened : Int64.maxValue.toInt < total → ∃ x, s = .float x

namespace Sum

variable {s : Sum} {total : Int}

theorem standsFor_zero : StandsFor (.int 0) 0 :=
  ⟨fun _ => ⟨0, rfl, rfl⟩, fun large => absurd large (by decide)⟩

/-- A sum that has become a float stays one, as the numbers added are not negative. -/
theorem StandsFor.add (h : s.StandsFor total) (low : 0 ≤ total) {n : Int64}
    (positive : 0 ≤ n.toInt) : (s.add (.int n)).StandsFor (total + n.toInt) := by
  have least : Int64.minValue.toInt ≤ total + n.toInt :=
    le_trans (by decide) (add_nonneg low positive)
  by_cases inside : total ≤ Int64.maxValue.toInt
  · obtain ⟨k, rfl, same⟩ := h.exact_ inside
    have whole : (Sum.int k).integerSum? (.int n) = Number.int64? (total + n.toInt) := by
      rw [integerSum?, same]
    constructor
    · intro fits
      rw [Sum.add, whole, Number.int64?, if_pos ⟨least, fits⟩]
      refine ⟨_, rfl, Int64.toInt_ofInt_of_le least ?_⟩
      exact lt_of_le_of_lt fits (by decide)
    · intro large
      rw [Sum.add, whole, Number.int64?, if_neg fun both => absurd both.2 (not_le.mpr large)]
      exact ⟨_, rfl⟩
  · obtain ⟨x, rfl⟩ := h.widened (not_le.mp inside)
    constructor
    · intro fits
      omega
    · exact fun _ => ⟨_, rfl⟩

/-- Numbers added one after another, where nulls are passed over. -/
theorem StandsFor.foldl {inputs : List Value} (h : s.StandsFor total) (low : 0 ≤ total)
    (countable : IsCountable inputs) :
    ((inputs.filter (!·.isNull)).foldl Sum.add s).StandsFor (total + totalOf inputs) := by
  induction inputs generalizing s total with
  | nil => simpa [totalOf] using h
  | cons v vs ih =>
    obtain ⟨first, others⟩ := List.forall_mem_cons.mp countable
    have whole : totalOf (v :: vs) = addend v + totalOf vs := by
      simp [totalOf]
    rw [whole]
    obtain rfl | ⟨n, rfl, positive⟩ := first
    · simpa [addend, Value.isNull] using ih h low others
    · have later := ih (h.add low positive) (add_nonneg low positive) others
      rwa [add_assoc] at later

theorem StandsFor.toValue_eq_int_iff (h : s.StandsFor total) (n : Int64) :
    s.toValue = .int n ↔ n.toInt = total := by
  by_cases inside : total ≤ Int64.maxValue.toInt
  · obtain ⟨k, rfl, same⟩ := h.exact_ inside
    rw [toValue, Value.int.injEq, ← same, Int64.toInt_inj]
    exact eq_comm
  · obtain ⟨x, rfl⟩ := h.widened (not_le.mp inside)
    refine iff_of_false nofun ?_
    rintro rfl
    exact inside n.toInt_le

theorem StandsFor.exists_toValue_eq_float_iff (h : s.StandsFor total) :
    (∃ x, s.toValue = .float x) ↔ Int64.maxValue.toInt < total := by
  by_cases inside : total ≤ Int64.maxValue.toInt
  · obtain ⟨k, rfl, -⟩ := h.exact_ inside
    exact iff_of_false nofun (not_lt.mpr inside)
  · obtain ⟨x, rfl⟩ := h.widened (not_le.mp inside)
    exact iff_of_true ⟨x, rfl⟩ (not_le.mp inside)

end Sum

namespace Accumulator

variable {a : Accumulator} {inputs : List Value}

theorem function_foldl (inputs : List Value) (a : Accumulator) :
    (inputs.foldl add a).function = a.function := by
  induction inputs generalizing a with
  | nil => rfl
  | cons v vs ih => rw [List.foldl_cons, ih, function_add]

theorem sum_foldl (inputs : List Value) (summing : a.function = .sum ∨ a.function = .avg) :
    (inputs.foldl add a).sum = (inputs.filter (!·.isNull)).foldl Sum.add a.sum := by
  induction inputs generalizing a with
  | nil => rfl
  | cons v vs ih =>
    rw [List.foldl_cons, ih (by rwa [function_add])]
    by_cases null : v.isNull = true
    · simp [add, null]
    · rcases summing with function | function <;> simp [add, null, function]

/-! ### The least and the greatest -/

/-- The side of the other values on which the function looks for one. -/
def sideOf? : Aggregate → Option Ordering
  | .min => some .lt
  | .max => some .gt
  | _ => none

/-- The value is the one kept of integers: one of them, and none lies on the side of it; or there is
none of either. -/
def Keeps (side : Ordering) (kept : Option Value) (numbers : Set Int64) : Prop :=
  (kept = none ∧ numbers = ∅) ∨
    ∃ n ∈ numbers, kept = some (.int n) ∧ ∀ m ∈ numbers, compare m.toInt n.toInt ≠ side

theorem keeps_better {side : Ordering} (strict : side = .lt ∨ side = .gt) {kept : Option Value}
    {numbers : Set Int64} (h : Keeps side kept numbers) (n : Int64) :
    Keeps side (some (better side kept (.int n))) (insert n numbers) := by
  have unequal : ∀ k : Int64, compare k.toInt k.toInt ≠ side := by
    rcases strict with rfl | rfl <;> simp
  right
  obtain ⟨rfl, rfl⟩ | ⟨k, inside, rfl, best⟩ := h
  · exact ⟨n, Set.mem_insert n _, rfl, by simpa using unequal n⟩
  · have order : (Value.int n).compare? (.int k) = some (compare n.toInt k.toInt) := rfl
    by_cases closer : compare n.toInt k.toInt = side
    · refine ⟨n, Set.mem_insert n _, ?_, ?_⟩
      · simp [better, order, closer]
      · rintro m (rfl | member)
        · exact unequal m
        · have beyond := best m member
          rcases strict with rfl | rfl <;>
            simp only [Int.compare_eq_lt, Int.compare_eq_gt, ne_eq] at closer beyond ⊢ <;> omega
    · refine ⟨k, Set.mem_insert_of_mem n inside, ?_, ?_⟩
      · simp [better, order, closer]
      · rintro m (rfl | member)
        · exact closer
        · exact best m member

/-- One packet brings its integer, or nothing. -/
theorem keeps_add {side : Ordering} (asks : sideOf? a.function = some side) {numbers : Set Int64}
    (h : Keeps side a.extreme numbers) {v : Value} (plain : v = .null ∨ ∃ n : Int64, v = .int n) :
    Keeps side (a.add v).extreme (numbers ∪ {n | v = .int n}) := by
  obtain rfl | ⟨n, rfl⟩ := plain
  · simpa [add, Value.isNull] using h
  · have strict : side = .lt ∨ side = .gt := by
      cases function : a.function <;> rw [function] at asks <;> cases asks <;> simp
    have found : (a.add (.int n)).extreme = some (better side a.extreme (.int n)) := by
      cases function : a.function <;> rw [function] at asks <;> cases asks <;>
        simp [add, Value.isNull, function]
    have one : numbers ∪ {m | Value.int n = .int m} = insert n numbers := by
      ext m
      simp [eq_comm]
    rw [found, one]
    exact keeps_better strict h n

theorem keeps_foldl (countable : IsCountable inputs) {side : Ordering}
    (asks : sideOf? a.function = some side) {numbers : Set Int64}
    (h : Keeps side a.extreme numbers) :
    Keeps side (inputs.foldl add a).extreme (numbers ∪ {n | .int n ∈ inputs}) := by
  induction inputs generalizing a numbers with
  | nil => simpa using h
  | cons v vs ih =>
    obtain ⟨first, others⟩ := List.forall_mem_cons.mp countable
    have plain : v = .null ∨ ∃ n : Int64, v = .int n :=
      first.imp_right fun ⟨n, same, _⟩ => ⟨n, same⟩
    have later := ih others (by rwa [function_add]) (keeps_add asks h plain)
    have both : numbers ∪ {n | v = .int n} ∪ {n | .int n ∈ vs}
        = numbers ∪ {n | .int n ∈ v :: vs} := by
      ext n
      simp [or_assoc, eq_comm]
    rwa [both] at later

/-! ### Results -/

/-- The result of a function that keeps one of the integers. -/
theorem run_extreme (countable : IsCountable inputs) {function : Aggregate} {side : Ordering}
    (asks : sideOf? function = some side) :
    ∃ kept, run function inputs = kept.getD .null ∧ Keeps side kept {n | .int n ∈ inputs} := by
  have nothing : Keeps side (start function).extreme ∅ := .inl ⟨rfl, rfl⟩
  have kept := keeps_foldl (a := start function) countable asks nothing
  rw [Set.empty_union] at kept
  refine ⟨_, ?_, kept⟩
  have same : (inputs.foldl add (start function)).function = function := function_foldl inputs _
  unfold run finish
  rw [same]
  cases function <;> cases asks <;> rfl

theorem run_extreme_eq_int_iff (countable : IsCountable inputs) {function : Aggregate}
    {side : Ordering} (asks : sideOf? function = some side) (n : Int64) :
    run function inputs = .int n ↔
      .int n ∈ inputs ∧ ∀ m, .int m ∈ inputs → compare m.toInt n.toInt ≠ side := by
  obtain ⟨kept, result, keeps⟩ := run_extreme countable asks
  rw [result]
  obtain ⟨rfl, none_⟩ | ⟨k, inside, rfl, best⟩ := keeps
  · refine iff_of_false nofun fun ⟨member, _⟩ => ?_
    exact Set.eq_empty_iff_forall_notMem.mp none_ n member
  · rw [Option.getD_some, Value.int.injEq]
    constructor
    · rintro rfl
      exact ⟨inside, best⟩
    · rintro ⟨member, best'⟩
      have one := best n member
      have other := best' k inside
      apply Int64.toInt_inj.mp
      cases function <;> cases asks <;>
        simp only [Int.compare_eq_lt, Int.compare_eq_gt, ne_eq] at one other <;> omega

/-- Sum and mean come from one sum. -/
theorem run_sum (countable : IsCountable inputs) :
    ∃ s : Sum, s.StandsFor (totalOf inputs) ∧ run .sum inputs = s.toValue ∧
      run .avg inputs = if UInt64.ofNat inputs.length == 0 then .null
        else .float (s.toFloat / (UInt64.ofNat inputs.length).toFloat) := by
  have whole := Sum.standsFor_zero.foldl le_rfl countable
  rw [zero_add] at whole
  refine ⟨_, whole, ?_, ?_⟩
  · have sum := sum_foldl (a := start .sum) inputs (.inl rfl)
    have function : (inputs.foldl add (start .sum)).function = .sum := function_foldl inputs _
    rw [run, finish, function, sum]
    rfl
  · have sum := sum_foldl (a := start .avg) inputs (.inr rfl)
    have function : (inputs.foldl add (start .avg)).function = .avg := function_foldl inputs _
    rw [run, finish, function, sum]
    rfl

theorem run_count (fits : inputs.length < 2 ^ 63) :
    ∃ n : Int64, run .count inputs = .int n ∧ n.toInt = inputs.length := by
  have function : (inputs.foldl add (start .count)).function = .count := function_foldl inputs _
  have signed : (UInt64.ofNat inputs.length).toInt64 = Int64.ofNat inputs.length := by
    simp
  exact ⟨_, by rw [run, finish, function], by rw [signed, Int64.toInt_ofNat_of_lt fits]⟩

theorem run_avg (countable : IsCountable inputs) (fits : inputs.length < 2 ^ 64) :
    (run .avg inputs = .null ↔ inputs = []) ∧
      (inputs ≠ [] → ∃ s, (run .sum inputs).float? = some s ∧
        run .avg inputs = .float (s / (UInt64.ofNat inputs.length).toFloat)) := by
  have empty : (UInt64.ofNat inputs.length == 0) = true ↔ inputs = [] := by
    rw [beq_iff_eq, ← UInt64.toNat_inj, UInt64.toNat_ofNat_of_lt' fits]
    simp
  obtain ⟨s, -, sum, avg⟩ := run_sum countable
  constructor
  · rw [avg]
    split
    next none_ => exact iff_of_true rfl (empty.mp none_)
    next some_ => exact iff_of_false nofun fun none_ => some_ (empty.mpr none_)
  · intro some_
    rw [if_neg fun none_ => some_ (empty.mp none_)] at avg
    refine ⟨s.toFloat, ?_, avg⟩
    rw [sum]
    cases s <;> rfl

theorem run_extreme_eq_null_iff (countable : IsCountable inputs) {function : Aggregate}
    {side : Ordering} (asks : sideOf? function = some side) :
    run function inputs = .null ↔ ∀ v ∈ inputs, v = .null := by
  obtain ⟨kept, result, keeps⟩ := run_extreme countable asks
  rw [result]
  obtain ⟨rfl, none_⟩ | ⟨n, inside, rfl, -⟩ := keeps
  · refine iff_of_true rfl fun v member => ?_
    obtain same | ⟨n, rfl, -⟩ := countable v member
    · exact same
    · exact absurd member (Set.eq_empty_iff_forall_notMem.mp none_ n)
  · refine iff_of_false nofun fun all => ?_
    cases all _ inside

end Accumulator

open Accumulator in
/-- Functions over a column of integers, in whatever order the packets come. The packets are counted
in 64 bits, and the count is shown with a sign. -/
theorem aggregates_exact {inputs arranged : List Value} (countable : IsCountable inputs)
    (order : arranged.Perm inputs) :
    (inputs.length < 2 ^ 63 → ∃ n : Int64, run .count arranged = .int n ∧
        n.toInt = inputs.length) ∧
      (∀ n, run .min arranged = .int n ↔ IsLeast {m | .int m ∈ inputs} n) ∧
      (run .min arranged = .null ↔ ∀ v ∈ inputs, v = .null) ∧
      (∀ n, run .max arranged = .int n ↔ IsGreatest {m | .int m ∈ inputs} n) ∧
      (run .max arranged = .null ↔ ∀ v ∈ inputs, v = .null) ∧
      (∀ n, run .sum arranged = .int n ↔ n.toInt = totalOf inputs) ∧
      ((∃ x, run .sum arranged = .float x) ↔ Int64.maxValue.toInt < totalOf inputs) ∧
      (inputs.length < 2 ^ 64 → (run .avg arranged = .null ↔ inputs = []) ∧
        (inputs ≠ [] → ∃ s, (run .sum arranged).float? = some s ∧
          run .avg arranged = .float (s / (UInt64.ofNat inputs.length).toFloat))) := by
  have countable' : IsCountable arranged := fun v member => countable v (order.mem_iff.mp member)
  have total : totalOf arranged = totalOf inputs := (order.map addend).sum_eq
  have members : ∀ v, v ∈ arranged ↔ v ∈ inputs := fun v => order.mem_iff
  have least : sideOf? .min = some .lt := rfl
  have greatest : sideOf? .max = some .gt := rfl
  have empty : arranged = [] ↔ inputs = [] := by
    rw [← List.length_eq_zero_iff, order.length_eq, List.length_eq_zero_iff]
  obtain ⟨s, stands, sum, -⟩ := run_sum countable'
  rw [total] at stands
  rw [← order.length_eq, Ne, ← empty]
  refine ⟨run_count, ?_, ?_, ?_, ?_, ?_, ?_, run_avg countable'⟩
  · intro n
    rw [run_extreme_eq_int_iff countable' least]
    simp [members, IsLeast, lowerBounds, Int64.le_iff_toInt_le, Int.compare_eq_lt]
  · simp only [run_extreme_eq_null_iff countable' least, members]
  · intro n
    rw [run_extreme_eq_int_iff countable' greatest]
    simp [members, IsGreatest, upperBounds, Int64.le_iff_toInt_le, Int.compare_eq_gt]
  · simp only [run_extreme_eq_null_iff countable' greatest, members]
  · intro n
    rw [sum]
    exact stands.toValue_eq_int_iff n
  · rw [sum]
    exact stands.exists_toValue_eq_float_iff

/-- Three packets whose integers add up to the greatest one. -/
def greatestTotal : List Value :=
  [.int 9223372036854775806, .null, .int 1]

open Accumulator in
theorem aggregates_exact_greatestTotal : IsCountable greatestTotal ∧
    greatestTotal.reverse.Perm greatestTotal ∧ greatestTotal.length < 2 ^ 63 ∧
    (∃ n : Int64, run .count greatestTotal.reverse = .int n ∧ n.toInt = 3) ∧
    run .sum greatestTotal.reverse = .int Int64.maxValue ∧
    run .min greatestTotal.reverse = .int 1 ∧
    ∃ s, (run .sum greatestTotal.reverse).float? = some s ∧
      run .avg greatestTotal.reverse = .float (s / (UInt64.ofNat 3).toFloat) := by
  have countable : IsCountable greatestTotal := by
    intro v member
    simp only [greatestTotal, List.mem_cons, List.not_mem_nil, or_false] at member
    rcases member with rfl | rfl | rfl
    · exact .inr ⟨_, rfl, by decide⟩
    · exact .inl rfl
    · exact .inr ⟨_, rfl, by decide⟩
  have order : greatestTotal.reverse.Perm greatestTotal := List.reverse_perm _
  have fits : greatestTotal.length < 2 ^ 63 := by decide
  obtain ⟨count, least, -, -, -, sum, -, mean⟩ := aggregates_exact countable order
  have some_ : greatestTotal ≠ [] := by simp [greatestTotal]
  refine ⟨countable, order, fits, count fits, (sum _).mpr (by decide), (least 1).mpr ⟨?_, ?_⟩,
    (mean (lt_trans fits (by decide))).2 some_⟩
  · simp [greatestTotal]
  · intro m member
    simp only [greatestTotal, Set.mem_ofPred_eq, List.mem_cons, Value.int.injEq, reduceCtorEq,
      List.not_mem_nil, or_false, false_or] at member
    rcases member with rfl | rfl <;> decide

end PacketQuery.Rows
