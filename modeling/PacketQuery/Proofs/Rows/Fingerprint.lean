import Mathlib.Data.List.Induction
import PacketQuery.Rows.Distinct
/-!
Rows that count as repeats. Where no text of a row holds the separator, the fingerprint falls into
the texts again, so that a row is dropped just where an earlier one shows the same text in every
column. Values of different kinds may show the same text.
-/

namespace PacketQuery.Rows

/-- What a row shows. -/
def texts (row : List Value) : List String :=
  row.map Value.render

/-- No text of the row holds the separator, or there is nothing to separate. -/
def Separable (row : List Value) : Prop :=
  row.length ≤ 1 ∨ ∀ text ∈ texts row, '\x1f' ∉ text.toList

/-- The rows before which no row shows the same. -/
def firsts (rows : List (List Value)) : List (List Value) :=
  (rows.zipIdx.filter fun (row, place) => texts row ∉ (rows.take place).map texts).map Prod.fst

variable {rows : List (List Value)} {row row' : List Value}

/-! ### Fingerprints -/

theorem toList_fingerprint (row : List Value) :
    (fingerprint row).toList = ['\x1f'].intercalate ((texts row).map String.toList) :=
  String.toList_intercalate

theorem splitOn_fingerprint (some_ : row ≠ []) (free : ∀ text ∈ texts row, '\x1f' ∉ text.toList) :
    (fingerprint row).toList.splitOn '\x1f' = (texts row).map String.toList := by
  rw [toList_fingerprint]
  refine List.splitOn_intercalate '\x1f' (List.forall_mem_map.mpr free) ?_
  simpa [texts] using some_

theorem fingerprint_singleton (v : Value) : fingerprint [v] = v.render := by
  rw [fingerprint, Text.joined, List.map_singleton, String.intercalate_singleton]

theorem fingerprint_eq_iff (wide : row.length = row'.length) (plain : Separable row)
    (plain' : Separable row') : fingerprint row = fingerprint row' ↔ texts row = texts row' := by
  refine ⟨fun same => ?_, fun same => congrArg (Text.joined separator) same⟩
  cases row with
  | nil =>
    obtain rfl := List.length_eq_zero_iff.mp wide.symm
    rfl
  | cons v vs =>
    cases row' with
    | nil => cases wide
    | cons w ws =>
      cases vs with
      | nil =>
        obtain rfl := List.length_eq_zero_iff.mp (Nat.succ.inj wide).symm
        rw [fingerprint_singleton, fingerprint_singleton] at same
        exact congrArg (fun text => [text]) same
      | cons v' vs =>
        have free := plain.resolve_left (by simp)
        have free' := plain'.resolve_left (by simp [← wide])
        have split := congrArg (fun text => text.toList.splitOn '\x1f') same
        rw [splitOn_fingerprint (by simp) free, splitOn_fingerprint (by simp) free'] at split
        exact (List.map_inj_right fun _ _ => String.toList_inj.mp).mp split

/-! ### Runs of rows -/

/-- A further row is kept if its fingerprint is new. -/
theorem keepFirst_append_singleton (seen : List String) (rows : List (List Value))
    (row : List Value) :
    (keepFirst seen (rows ++ [row])).1 = (keepFirst seen rows).1
      ++ if fingerprint row ∈ seen ++ rows.map fingerprint then [] else [row] := by
  induction rows generalizing seen with
  | nil =>
    by_cases known : fingerprint row ∈ seen <;> simp [keepFirst, known]
  | cons first rows ih =>
    rw [List.cons_append, keepFirst, keepFirst]
    by_cases known : fingerprint first ∈ seen
    · have same : fingerprint row ∈ seen ++ (first :: rows).map fingerprint
          ↔ fingerprint row ∈ seen ++ rows.map fingerprint := by
        rw [List.map_cons, List.mem_append, List.mem_append, List.mem_cons]
        refine or_congr_right' fun fresh => or_iff_right ?_
        rintro old
        exact fresh (old ▸ known)
      simp only [List.contains_eq_mem, known, decide_true, ↓reduceIte, ih, same]
    · have same : fingerprint row ∈ seen ++ (first :: rows).map fingerprint
          ↔ fingerprint row ∈ (fingerprint first :: seen) ++ rows.map fingerprint := by
        simp [or_left_comm]
      simp only [List.contains_eq_mem, known, decide_false, Bool.false_eq_true, ↓reduceIte, ih,
        same, List.cons_append]

theorem firsts_append_singleton (rows : List (List Value)) (row : List Value) :
    firsts (rows ++ [row])
      = firsts rows ++ if texts row ∈ rows.map texts then [] else [row] := by
  have before : ∀ entry ∈ rows.zipIdx,
      decide (texts entry.1 ∉ ((rows ++ [row]).take entry.2).map texts)
      = decide (texts entry.1 ∉ (rows.take entry.2).map texts) := by
    intro (first, place) member
    have bound := List.snd_lt_of_mem_zipIdx member
    rw [List.take_append_of_le_length (by simpa using Nat.le_of_lt bound)]
  rw [firsts, List.zipIdx_append, List.filter_append, List.filter_congr before, List.map_append,
    ← firsts]
  refine congrArg (firsts rows ++ ·) ?_
  by_cases known : texts row ∈ rows.map texts
  · simp [known]
  · simp [known]

/-- A row is dropped just where an earlier one shows the same text in every column; the others stay,
and stay in their order. -/
theorem keepFirst_eq_firsts {width : Nat} (wide : ∀ row ∈ rows, row.length = width)
    (plain : ∀ row ∈ rows, Separable row) : (keepFirst [] rows).1 = firsts rows := by
  induction rows using List.reverseRecOn with
  | nil => rfl
  | append_singleton rows row ih =>
    obtain ⟨wides, wide⟩ := List.forall_mem_append.mp wide
    obtain ⟨plains, plain⟩ := List.forall_mem_append.mp plain
    have same : fingerprint row ∈ rows.map fingerprint ↔ texts row ∈ rows.map texts := by
      rw [List.mem_map, List.mem_map]
      refine exists_congr fun earlier => and_congr_right fun member => ?_
      exact fingerprint_eq_iff ((wides earlier member).trans (wide row (.head _)).symm)
        (plains earlier member) (plain row (.head _))
    rw [keepFirst_append_singleton, firsts_append_singleton, ih wides plains, List.nil_append]
    simp only [same]

theorem keepFirst_eq_firsts_pairs :
    let rows : List (List Value) := [[.int 1, .text "a"], [.int 2, .text "a"], [.int 1, .text "a"]]
    (∀ row ∈ rows, row.length = 2) ∧ (∀ row ∈ rows, Separable row) ∧
      (keepFirst [] rows).1 = firsts rows := by
  intro rows
  have wide : ∀ row ∈ rows, row.length = 2 := by
    simp [rows]
  have plain : ∀ row ∈ rows, Separable row := by
    simp only [rows, List.forall_mem_cons]
    exact ⟨.inr (by decide), .inr (by decide), .inr (by decide), List.forall_mem_nil _⟩
  exact ⟨wide, plain, keepFirst_eq_firsts wide plain⟩

/-- A text repeats the number that it writes. -/
theorem keepFirst_drops_unequal :
    (keepFirst [] [[.int 1], [.text "1"]]).1 = [[.int 1]] ∧ [Value.int 1] ≠ [.text "1"] := by
  constructor
  · rfl
  · simp

end PacketQuery.Rows
