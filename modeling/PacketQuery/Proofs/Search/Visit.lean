import Mathlib.Data.List.Perm.Basic
import PacketQuery.Proofs.Order
import PacketQuery.Proofs.Search.Batches
/-!
What one segment brings to a search, taken by itself: how many packets its catalogue offers, why it
could not be read, and what becomes of each packet in the order of offsets. The places of a chunk
of segments in ascending order are those of its segments one after another.
-/

namespace PacketQuery.Search

open Catalog (Archive Entry Files Mask)
open PacketQuery.Language (Statement)

/-- What becomes of the packet that an entry tells of. -/
def outcomeOf (s : Statement) (now : Int64) (id : UInt32) (segment : Segment) (e : Entry) :
    Outcome :=
  match segment.packetAt? e.offset.toNat with
  | none => .unresolved ⟨id, e.offset⟩
  | some captured =>
    let p := Packet.ofCaptured Protocol.all segment.linkType id captured
    if s.filter.all (Language.accepts p now) then .matched (.ofPacket (.ofStatement s) p)
    else .rejected

/-- What one segment brings to a search. -/
structure Visit where
  /-- How many packets the catalogue offers. -/
  searched : Nat
  /-- Why the segment could not be read. -/
  problems : List Problem
  /-- What becomes of the packets, by offset. -/
  outcomes : List Outcome

def byOffset (e f : Entry) : Ordering :=
  compare e.offset.toNat f.offset.toNat

/-- Scans the entries of a segment and looks at the packets. A segment without entries to look at
need not be there. -/
def visit (a : Archive) (files : Files) (s : Statement) (now : Int64) (id : UInt32) : Visit :=
  match a.scan files id (.ofNames s.protocols) s.networks with
  | .error fault => ⟨0, [.entries id fault], []⟩
  | .ok [] => ⟨0, [], []⟩
  | .ok es =>
    match a.openSegment files id with
    | .error failure => ⟨es.length, [.unopened id failure], []⟩
    | .ok segment =>
      ⟨es.length, [], (Order.sort byOffset es).map (outcomeOf s now id segment)⟩

instance : Std.TransCmp Place.order :=
  inferInstanceAs (Std.TransCmp (compareLex (compareOn fun p : Place => p.segment.toNat)
    (compareOn fun p : Place => p.offset.toNat)))

instance : Std.LawfulEqCmp Place.order where
  compare_self {p} := by simp [Place.order]
  eq_of_compare {p q} same := by
    rw [Place.order, Ordering.then_eq_eq, Nat.compare_eq_eq, Nat.compare_eq_eq] at same
    obtain ⟨segment, offset⟩ := same
    cases p
    cases q
    simp_all [UInt32.toNat_inj, UInt64.toNat_inj]

theorem Place.order_isLE_of_segment_lt {p q : Place} (lt : p.segment < q.segment) :
    (p.order q).isLE := by
  have first : compare p.segment.toNat q.segment.toNat = .lt := Nat.compare_eq_lt.mpr lt
  rw [Place.order, first]
  rfl

section Chunk

variable (a : Archive) (files : Files) (s : Statement) (now : Int64)

abbrev offered (id : UInt32) : Offer :=
  offerOf a files (.ofNames s.protocols) s.networks id

abbrev chunkOffer (ids : List UInt32) : Offer :=
  offer a files (.ofNames s.protocols) s.networks ids

/-- A segment cannot be scanned, has nothing to look at, cannot be opened, or is looked at. -/
theorem offered_cases (id : UInt32) :
    (∃ fault, offered a files s id = ⟨[], [], 0, [.entries id fault]⟩ ∧
      visit a files s now id = ⟨0, [.entries id fault], []⟩) ∨
    (offered a files s id = ⟨[], [], 0, []⟩ ∧ visit a files s now id = ⟨0, [], []⟩) ∨
    (∃ (es : List Entry) (failure : Failure), es ≠ [] ∧
      offered a files s id = ⟨[], [], es.length, [.unopened id failure]⟩ ∧
      visit a files s now id = ⟨es.length, [.unopened id failure], []⟩) ∨
    (∃ (es : List Entry) (segment : Segment),
      offered a files s id = ⟨es.map fun e => ⟨id, e.offset⟩, [(id, segment)], es.length, []⟩ ∧
      visit a files s now id =
        ⟨es.length, [], (Order.sort byOffset es).map (outcomeOf s now id segment)⟩) := by
  unfold offered offerOf visit
  cases a.scan files id (.ofNames s.protocols) s.networks with
  | error fault => exact .inl ⟨fault, rfl, rfl⟩
  | ok es =>
    cases es with
    | nil => exact .inr (.inl ⟨rfl, rfl⟩)
    | cons e es =>
      cases a.openSegment files id with
      | error failure => exact .inr (.inr (.inl ⟨e :: es, failure, by simp, rfl, rfl⟩))
      | ok segment => exact .inr (.inr (.inr ⟨e :: es, segment, rfl, rfl⟩))

theorem offered_searched (id : UInt32) :
    (offered a files s id).searched = (visit a files s now id).searched := by
  obtain ⟨_, o, v⟩ | ⟨o, v⟩ | ⟨_, _, _, o, v⟩ | ⟨_, _, o, v⟩ := offered_cases a files s now id <;>
    rw [o, v]

theorem offered_problems (id : UInt32) :
    (offered a files s id).problems = (visit a files s now id).problems := by
  obtain ⟨_, o, v⟩ | ⟨o, v⟩ | ⟨_, _, _, o, v⟩ | ⟨_, _, o, v⟩ := offered_cases a files s now id <;>
    rw [o, v]

theorem segment_of_mem_places {id : UInt32} {place : Place}
    (h : place ∈ (offered a files s id).places) : place.segment = id := by
  obtain ⟨_, o, _⟩ | ⟨o, _⟩ | ⟨_, _, _, o, _⟩ | ⟨es, _, o, _⟩ := offered_cases a files s 0 id <;>
    rw [o] at h
  · simp at h
  · simp at h
  · simp at h
  · obtain ⟨e, _, rfl⟩ := List.mem_map.mp h
    rfl

theorem fst_of_mem_opened {id : UInt32} {entry : UInt32 × Segment}
    (h : entry ∈ (offered a files s id).opened) : entry.1 = id := by
  obtain ⟨_, o, _⟩ | ⟨o, _⟩ | ⟨_, _, _, o, _⟩ | ⟨_, _, o, _⟩ := offered_cases a files s 0 id <;>
    rw [o] at h
  · simp at h
  · simp at h
  · simp at h
  · rw [List.mem_singleton.mp h]

theorem resolve_of_opened {opened : List (UInt32 × Segment)} {id : UInt32} {segment : Segment}
    (found : opened.find? (·.1 == id) = some (id, segment)) (e : Entry) :
    resolve (.ofStatement s) now opened ⟨id, e.offset⟩ = outcomeOf s now id segment e := by
  unfold resolve outcomeOf
  simp only [found]
  cases at_ : segment.packetAt? e.offset.toNat <;> simp [at_, Plan.ofStatement]

/-- The packets of a segment come to what its visit says, whatever else has been opened. -/
theorem resolve_places {opened : List (UInt32 × Segment)} {id : UInt32}
    (found : opened.find? (·.1 == id) = (offered a files s id).opened.head?) :
    (Order.sort Place.order (offered a files s id).places).map
        (resolve (.ofStatement s) now opened)
      = (visit a files s now id).outcomes := by
  obtain ⟨_, o, v⟩ | ⟨o, v⟩ | ⟨_, _, _, o, v⟩ | ⟨es, segment, o, v⟩ :=
    offered_cases a files s now id <;> rw [o] at found ⊢ <;> rw [v]
  · simp
  · simp
  · simp
  · have order : ∀ e f : Entry, byOffset e f = Place.order ⟨id, e.offset⟩ ⟨id, f.offset⟩ := by
      intro e f
      simp [byOffset, Place.order]
    rw [← Order.map_sort (fun e : Entry => (⟨id, e.offset⟩ : Place)) order, List.map_map]
    exact List.map_congr_left fun e _ => resolve_of_opened s now found e

variable {ids : List UInt32} (increasing : ids.Pairwise (· < ·))
include increasing

/-- The places of a chunk in ascending order are those of its segments one after another. -/
theorem sort_places :
    Order.sort Place.order (ids.flatMap fun id => (offered a files s id).places)
      = ids.flatMap fun id => Order.sort Place.order (offered a files s id).places := by
  -- places are equal where their order says so, so one sorted list has these elements
  apply Order.sort_eq_of_perm
  · exact List.Perm.flatMap_left _ fun id _ => (Order.sort_perm _ _).symm
  · rw [List.pairwise_flatMap]
    refine ⟨fun id _ => Order.sort_pairwise _, increasing.imp fun lt p hp q hq => ?_⟩
    apply Place.order_isLE_of_segment_lt
    have first := segment_of_mem_places a files s ((Order.sort_perm _ _).mem_iff.mp hp)
    have second := segment_of_mem_places a files s ((Order.sort_perm _ _).mem_iff.mp hq)
    rwa [first, second]

/-- Among the segments that a chunk has opened, each is found under its number. -/
theorem find?_opened {id : UInt32} (member : id ∈ ids) :
    (ids.flatMap fun id => (offered a files s id).opened).find? (·.1 == id)
      = (offered a files s id).opened.head? := by
  have others : ∀ rest : List UInt32, id ∉ rest →
      (rest.flatMap fun id => (offered a files s id).opened).find? (·.1 == id) = none := by
    intro rest absent
    rw [List.find?_eq_none]
    intro entry h same
    obtain ⟨i, hi, opened⟩ := List.mem_flatMap.mp h
    rw [fst_of_mem_opened a files s opened, beq_iff_eq] at same
    exact absent (same ▸ hi)
  have own : (offered a files s id).opened.find? (·.1 == id)
      = (offered a files s id).opened.head? := by
    cases opened : (offered a files s id).opened with
    | nil => rfl
    | cons entry rest =>
      have fst := fst_of_mem_opened a files s (opened ▸ List.mem_cons_self : entry ∈ _)
      simp [fst]
  -- the number stands once in the chunk, so neither part around it has opened it
  obtain ⟨before, after, rfl⟩ := List.append_of_mem member
  have distinct : (before ++ id :: after).Nodup := increasing.imp UInt32.ne_of_lt
  rw [List.nodup_append, List.nodup_cons] at distinct
  obtain ⟨_, ⟨not_after, _⟩, apart⟩ := distinct
  have not_before : id ∉ before := fun h => apart id h id List.mem_cons_self rfl
  rw [List.flatMap_append, List.flatMap_cons, List.find?_append, List.find?_append,
    others before not_before, others after not_after, own]
  simp

theorem map_resolve_places :
    (chunkOffer a files s ids).places.map
        (resolve (.ofStatement s) now (chunkOffer a files s ids).opened)
      = ids.flatMap fun id => (visit a files s now id).outcomes := by
  have places : (chunkOffer a files s ids).places
      = ids.flatMap fun id => Order.sort Place.order (offered a files s id).places := by
    rw [← sort_places a files s increasing]
    simp only [offer, List.flatMap_map]
  have opened : (chunkOffer a files s ids).opened
      = ids.flatMap fun id => (offered a files s id).opened := by
    simp only [offer, List.flatMap_map]
  rw [places, List.map_flatMap]
  apply List.flatMap_congr
  intro id member
  apply resolve_places
  rw [opened]
  exact find?_opened a files s increasing member

end Chunk

end PacketQuery.Search
