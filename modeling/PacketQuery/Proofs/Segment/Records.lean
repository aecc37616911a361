import Mathlib.Data.List.Basic
import PacketQuery.Catalog.Entry
/-!
Records read one after another are found again at their offsets, which ascend through the segment.
-/

namespace PacketQuery

theorem mapM_map {ε α β : Type} (f : α → β) (xs : List (Except ε α)) :
    (xs.mapM fun x => x.map f) = (xs.mapM id).map (·.map f) := by
  induction xs with
  | nil => rfl
  | cons x xs ih =>
    rw [List.mapM_cons, List.mapM_cons, ih]
    cases x with
    | error fault => rfl
    | ok a => cases xs.mapM id <;> rfl

theorem eq_map_ok {ε α : Type} {xs : List (Except ε α)} {ys : List α}
    (whole : xs.mapM id = .ok ys) : xs = ys.map .ok := by
  induction xs generalizing ys with
  | nil =>
    cases whole
    rfl
  | cons x xs ih =>
    rw [List.mapM_cons] at whole
    cases x with
    | error fault => cases whole
    | ok a =>
      cases rest : xs.mapM id with
      | error fault =>
        rw [rest] at whole
        cases whole
      | ok tail =>
        rw [rest] at whole
        cases whole
        rw [ih rest]
        rfl

theorem mapM_map_ok {ε α : Type} (xs : List α) :
    (xs.map (Except.ok (ε := ε))).mapM id = .ok xs := by
  induction xs with
  | nil => rfl
  | cons x xs ih =>
    rw [List.map_cons, List.mapM_cons, ih]
    rfl

theorem exists_eq_map_ok {ε α : Type} {xs : List (Except ε α)}
    (faultless : ¬ ∃ fault, .error fault ∈ xs) : ∃ ys : List α, xs = ys.map .ok := by
  induction xs with
  | nil => exact ⟨[], rfl⟩
  | cons x xs ih =>
    obtain ⟨ys, rest⟩ := ih fun ⟨fault, member⟩ => faultless ⟨fault, List.mem_cons_of_mem x member⟩
    cases x with
    | error fault => exact absurd ⟨fault, List.mem_cons_self⟩ faultless
    | ok a => exact ⟨a :: ys, by rw [rest, List.map_cons]⟩

namespace Segment

variable (s : Segment)

/-- The packets of a segment that can be read to its end. -/
def packets : Except SegmentFault (List Captured) :=
  s.records.mapM id

theorem packets_eq_ok_iff {s : Segment} {cs : List Captured} :
    s.packets = .ok cs ↔ s.records = cs.map .ok :=
  ⟨eq_map_ok, fun whole => by rw [packets, whole, mapM_map_ok]⟩

theorem offset_of_readRecord {s : Segment} {offset : Nat} {rest : Bytes} {p : Captured}
    (read : s.readRecord offset rest = .ok p) : p.offset = offset := by
  unfold readRecord at read
  dsimp only at read
  split at read
  · cases read
  · split at read
    · cases read
    · split at read
      · cases read
      · cases read
        rfl

/-- Records that are read one after another are found at their own offsets. -/
theorem recordsFrom_found {offset : Nat} {cs : List Captured}
    (whole : s.recordsFrom offset (s.data.drop offset) = cs.map .ok) :
    (∀ p ∈ cs, s.readRecord p.offset (s.data.drop p.offset) = .ok p ∧
      offset ≤ p.offset ∧ p.offset < s.data.length) ∧
      cs.Pairwise fun p q => p.offset < q.offset := by
  induction cs generalizing offset with
  | nil => exact ⟨nofun, List.Pairwise.nil⟩
  | cons p cs ih =>
    rw [recordsFrom, List.map_cons] at whole
    split at whole
    next => cases whole
    next nonempty =>
      cases read : s.readRecord offset (s.data.drop offset) with
      | error fault =>
        rw [read] at whole
        cases whole
      | ok first =>
        rw [read] at whole
        obtain ⟨head, tail⟩ := List.cons.inj whole
        cases head
        rw [List.drop_drop] at tail
        obtain ⟨found, ascending⟩ := ih tail
        have start := offset_of_readRecord read
        have inside : offset < s.data.length := by
          by_contra outside
          exact nonempty (List.drop_eq_nil_of_le (by omega))
        have later : ∀ q ∈ cs, offset < q.offset := by
          intro q member
          have := (found q member).2.1
          simp only [recordHeaderLength] at this
          omega
        refine ⟨fun q member => ?_, List.pairwise_cons.mpr ⟨?_, ascending⟩⟩
        · rcases List.mem_cons.mp member with rfl | rest
          · rw [start]
            exact ⟨read, Nat.le_refl _, inside⟩
          · obtain ⟨again, _, bound⟩ := found q rest
            exact ⟨again, Nat.le_of_lt (later q rest), bound⟩
        · rwa [start]

variable {s} {cs : List Captured} (whole : s.packets = .ok cs)
include whole

theorem packetAt?_of_mem {p : Captured} (member : p ∈ cs) :
    s.packetAt? p.offset = some p ∧ p.offset < s.data.length := by
  obtain ⟨read, start, inside⟩ := (recordsFrom_found s (eq_map_ok whole)).1 p member
  refine ⟨?_, inside⟩
  rw [packetAt?, if_neg (Nat.not_lt.mpr start), read]
  rfl

theorem offsets_ascend : cs.Pairwise fun p q => p.offset < q.offset :=
  (recordsFrom_found s (eq_map_ok whole)).2

end Segment

end PacketQuery
