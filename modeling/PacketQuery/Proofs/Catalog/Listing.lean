import PacketQuery.Proofs.Catalog.FileNames
import PacketQuery.Proofs.Order
/-!
The segments of an archive are those whose files its directory lists.
-/

namespace PacketQuery.Catalog

/-- The numbers that the names of files give, once for every file. -/
def numbersIn (children : List (String × Files)) : List UInt32 :=
  children.filterMap fun entry => Archive.segmentId? entry.1

/-- The same numbers in ascending order. -/
def listedIds (children : List (String × Files)) : List UInt32 :=
  Order.sort (fun i j => compare i.toNat j.toNat) (numbersIn children)

/-- The files of segments are named by their numbers, written in the one way, and no name is given
twice. -/
structure IsSegmentListing (children : List (String × Files)) : Prop where
  distinct : (children.map (·.1)).Nodup
  canonical : ∀ entry ∈ children, ∀ id, Archive.segmentId? entry.1 = some id →
    entry.1 = segmentName id

theorem segmentId?_segmentName (id : UInt32) : Archive.segmentId? (segmentName id) = some id := by
  have suffix : Archive.segmentSuffix.toList.length = 5 := rfl
  have text : (segmentName id).toList
      = (toString id.toNat).toList ++ Archive.segmentSuffix.toList := String.toList_append
  have stem : (segmentName id).toList.take ((segmentName id).toList.length - 5)
      = (toString id.toNat).toList := by
    rw [text, List.length_append, suffix, Nat.add_sub_cancel, List.take_left]
  have fits : id.toNat ≤ UInt32.size - 1 := Nat.le_sub_one_of_lt id.toNat_lt
  simp only [Archive.segmentId?, suffix, stem]
  rw [text, if_pos (beq_self_eq_true _), toList_number, Text.unsigned?_toDigits fits]
  simp

theorem mem_numbersIn {children : List (String × Files)} (l : IsSegmentListing children)
    (id : UInt32) : id ∈ numbersIn children ↔ segmentName id ∈ children.map (·.1) := by
  rw [numbersIn, List.mem_filterMap, List.mem_map]
  constructor
  · rintro ⟨entry, member, number⟩
    exact ⟨entry, member, l.canonical entry member id number⟩
  · rintro ⟨entry, member, named⟩
    have number : Archive.segmentId? entry.1 = some id := by
      rw [named, segmentId?_segmentName]
    exact ⟨entry, member, number⟩

theorem nodup_numbersIn {children : List (String × Files)} (l : IsSegmentListing children) :
    (numbersIn children).Nodup := by
  have apart := l.distinct
  rw [List.Nodup, List.pairwise_map] at apart
  rw [numbersIn, List.Nodup, List.pairwise_filterMap]
  refine apart.imp_of_mem fun {e f} first second ne i number j number' => ?_
  rintro rfl
  exact ne ((l.canonical e first i number).trans (l.canonical f second i number').symm)

instance transCmp_number : Std.TransCmp fun i j : UInt32 => compare i.toNat j.toNat :=
  inferInstanceAs (Std.TransCmp (compareOn UInt32.toNat))

section Order

variable (children : List (String × Files))

theorem listedIds_perm : (listedIds children).Perm (numbersIn children) :=
  Order.sort_perm _ _

theorem listedIds_sorted : (listedIds children).Pairwise (· ≤ ·) := by
  have sorted : (listedIds children).Pairwise fun i j => (compare i.toNat j.toNat).isLE :=
    Order.sort_pairwise _
  refine sorted.imp fun {i j} le => ?_
  rwa [Nat.isLE_compare, ← UInt32.le_iff_toNat_le] at le

theorem listedIds_ascending_iff :
    (listedIds children).Pairwise (· < ·) ↔ (numbersIn children).Nodup := by
  rw [← (listedIds_perm children).nodup_iff]
  constructor
  · exact fun ascending => ascending.imp UInt32.ne_of_lt
  · intro apart
    exact (listedIds_sorted children).imp₂ (fun _ _ le ne => UInt32.lt_of_le_of_ne le ne) apart

end Order

namespace Archive

variable {a : Archive} {files : Files} {children : List (String × Files)}

theorem segmentIds_eq (listed : files.list a.segments = .ok children) :
    a.segmentIds files = .ok (listedIds children) := by
  rw [segmentIds, listed]
  rfl

end Archive

end PacketQuery.Catalog
