import Mathlib.Data.List.Pairwise
import PacketQuery.Order
/-!
Orders by the first difference tell unequal lists apart, so a text put into a sorted list becomes
a member of it and nothing else does. Three comparisons by the first difference are those of one
ranking where the elements' comparisons are. Sorting by a transitive order yields the one sorted
form of a list, if only equal elements compare equal.
-/

namespace PacketQuery.Order

theorem lexicographic_eq_eq {α : Type} {cmp : α → α → Ordering} {as bs : List α}
    (same : ∀ a ∈ as, ∀ b ∈ bs, cmp a b = .eq ↔ a = b) :
    lexicographic cmp as bs = .eq ↔ as = bs := by
  induction as generalizing bs with
  | nil => cases bs <;> simp [lexicographic]
  | cons a as ih =>
    cases bs with
    | nil => simp [lexicographic]
    | cons b bs =>
      have tails := ih fun a inside b inside' => same a (.tail _ inside) b (.tail _ inside')
      rw [lexicographic, Ordering.then_eq_eq, same a (.head _) b (.head _), tails, List.cons.injEq]

theorem lexicographic_self {α : Type} {cmp : α → α → Ordering} {as : List α}
    (self : ∀ a ∈ as, cmp a a = .eq) : lexicographic cmp as as = .eq := by
  induction as with
  | nil => rfl
  | cons a as ih =>
    obtain ⟨head, tail⟩ := List.forall_mem_cons.mp self
    rw [lexicographic, head, ih tail]
    rfl

theorem lexicographic_swap {α : Type} {cmp : α → α → Ordering}
    (swap : ∀ a b, cmp b a = (cmp a b).swap) (as bs : List α) :
    lexicographic cmp bs as = (lexicographic cmp as bs).swap := by
  induction as generalizing bs with
  | nil => cases bs <;> rfl
  | cons a as ih =>
    cases bs with
    | nil => rfl
    | cons b bs => rw [lexicographic, lexicographic, Ordering.swap_then, swap a b, ih bs]

theorem text_eq_eq (a b : String) : text a b = .eq ↔ a = b := by
  have chars : ∀ c ∈ a.toList, ∀ d ∈ b.toList, compare c.toNat d.toNat = .eq ↔ c = d := by
    intro c _ d _
    rw [Nat.compare_eq_eq, Char.toNat_inj]
  rw [text, lexicographic_eq_eq chars, String.toList_inj]

theorem bytes_eq_eq (a b : List UInt8) : bytes a b = .eq ↔ a = b :=
  lexicographic_eq_eq fun _ _ _ _ => by rw [Nat.compare_eq_eq, UInt8.toNat_inj]

theorem text_swap (a b : String) : text b a = (text a b).swap :=
  lexicographic_swap (fun _ _ => (Nat.compare_swap _ _).symm) _ _

theorem bytes_swap (a b : List UInt8) : bytes b a = (bytes a b).swap :=
  lexicographic_swap (fun _ _ => (Nat.compare_swap _ _).symm) _ _

theorem mem_insertText {x y : String} {ys : List String} :
    x ∈ insertText y ys ↔ x = y ∨ x ∈ ys := by
  induction ys with
  | nil => simp [insertText]
  | cons z zs ih =>
    unfold insertText
    split
    next => simp
    next same =>
      rw [(text_eq_eq y z).mp same]
      simp
    next => simp [ih, or_left_comm]

/-! ### Three comparisons -/

/-- Three comparisons that one ranking of `a`, `b` and `c` can give: of `a` with `b`, of `b` with
`c`, and of `a` with `c`. -/
def Consistent (ab bc ac : Ordering) : Prop :=
  (ab = .eq → ac = bc) ∧ (bc = .eq → ac = ab) ∧ (ab = bc → ac = ab)

/-- A class of elements on which a comparison is transitive. -/
def TransitiveOn {α : Type} (cmp : α → α → Ordering) (among : α → Prop) : Prop :=
  ∀ a b c, among a → among b → among c → cmp a b ≠ .gt → cmp b c ≠ .gt → cmp a c ≠ .gt

theorem Consistent.trans {ab bc ac : Ordering} (h : Consistent ab bc ac) (first : ab ≠ .gt)
    (second : bc ≠ .gt) : ac ≠ .gt := by
  cases ab with
  | gt => exact absurd rfl first
  | eq => rwa [h.1 rfl]
  | lt =>
    cases bc with
    | gt => exact absurd rfl second
    | eq => rwa [h.2.1 rfl]
    | lt => rwa [h.2.2 rfl]

/-- Where the first comparison decides, the second is asked only between equals. -/
theorem Consistent.then {ab bc ac ab' bc' ac' : Ordering} (h : Consistent ab bc ac)
    (h' : Consistent ab' bc' ac') : Consistent (ab.then ab') (bc.then bc') (ac.then ac') := by
  unfold Consistent at h h' ⊢
  cases ab <;> cases bc <;> cases ac <;> simp_all <;> (rintro rfl; rfl)

/-- The first two of three change places. -/
theorem Consistent.swap_left {ab bc ac : Ordering} (h : Consistent ab bc ac) :
    Consistent ab.swap ac bc := by
  unfold Consistent at h ⊢
  cases ab <;> cases bc <;> cases ac <;> simp_all

/-- The last two of three change places. -/
theorem Consistent.swap_right {ab bc ac : Ordering} (h : Consistent ab bc ac) :
    Consistent ac bc.swap ab := by
  unfold Consistent at h ⊢
  cases ab <;> cases bc <;> cases ac <;> simp_all

/-- Comparisons that refine those of a ranking which does not rank all three alike. -/
theorem Consistent.refine {ab bc ac ab' bc' ac' : Ordering} (h : Consistent ab bc ac)
    (first : ab ≠ .eq → ab' = ab) (second : bc ≠ .eq → bc' = bc) (third : ac ≠ .eq → ac' = ac)
    (apart : ¬ (ab = .eq ∧ bc = .eq)) : Consistent ab' bc' ac' := by
  unfold Consistent at h ⊢
  cases ab <;> cases bc <;> cases ac <;> simp_all

theorem consistent_of_transCmp {α : Type} {cmp : α → α → Ordering} [Std.TransCmp cmp] (a b c : α) :
    Consistent (cmp a b) (cmp b c) (cmp a c) := by
  refine ⟨Std.TransCmp.congr_left, fun same => (Std.TransCmp.congr_right same).symm, fun same => ?_⟩
  cases first : cmp a b with
  | lt => exact Std.TransCmp.lt_trans first (same ▸ first)
  | eq => rw [Std.TransCmp.congr_left first, ← same, first]
  | gt => exact Std.TransCmp.gt_trans first (same ▸ first)

theorem consistent_lexicographic {α : Type} {cmp : α → α → Ordering} {as bs cs : List α}
    (members : ∀ a ∈ as, ∀ b ∈ bs, ∀ c ∈ cs, Consistent (cmp a b) (cmp b c) (cmp a c)) :
    Consistent (lexicographic cmp as bs) (lexicographic cmp bs cs) (lexicographic cmp as cs) := by
  induction as generalizing bs cs with
  | nil => cases bs <;> cases cs <;> simp [lexicographic, Consistent]
  | cons a as ih =>
    cases bs with
    | nil => cases cs <;> simp [lexicographic, Consistent]
    | cons b bs =>
      cases cs with
      | nil => simp [lexicographic, Consistent, eq_comm]
      | cons c cs =>
        have head := members a (by simp) b (by simp) c (by simp)
        refine head.then (ih fun a first b second c third => ?_)
        exact members a (.tail _ first) b (.tail _ second) c (.tail _ third)

theorem text_lt_trans {a b c : String} (first : text a b = .lt) (second : text b c = .lt) :
    text a c = .lt := by
  have codes : ∀ x ∈ a.toList, ∀ y ∈ b.toList, ∀ z ∈ c.toList,
      Consistent (compare x.toNat y.toNat) (compare y.toNat z.toNat) (compare x.toNat z.toNat) :=
    fun x _ y _ z _ => consistent_of_transCmp x.toNat y.toNat z.toNat
  have same : text a b = text b c := by rw [first, second]
  exact ((consistent_lexicographic codes).2.2 same).trans first

/-- Texts stay strictly ascending with a further one. -/
theorem insertText_ascending {x : String} {ys : List String}
    (ascending : ys.Pairwise fun a b => text a b = .lt) :
    (insertText x ys).Pairwise fun a b => text a b = .lt := by
  induction ys with
  | nil => exact List.pairwise_singleton _ _
  | cons y ys ih =>
    obtain ⟨least, rest⟩ := List.pairwise_cons.mp ascending
    unfold insertText
    split
    next before =>
      refine List.pairwise_cons.mpr ⟨List.forall_mem_cons.mpr ⟨before, fun z member => ?_⟩,
        ascending⟩
      exact text_lt_trans before (least z member)
    next => exact ascending
    next after =>
      refine List.pairwise_cons.mpr ⟨fun z member => ?_, ih rest⟩
      rcases mem_insertText.mp member with rfl | member
      · rw [text_swap, after]
        rfl
      · exact least z member

section Sorting

variable {α β : Type} {cmp : α → α → Ordering}

@[simp] theorem sort_nil (cmp : α → α → Ordering) : sort cmp [] = [] :=
  List.mergeSort_nil

theorem sort_perm (cmp : α → α → Ordering) (xs : List α) : (sort cmp xs).Perm xs :=
  List.mergeSort_perm xs _

theorem ne_gt_eq_isLE (o : Ordering) : (o != .gt) = o.isLE := by
  cases o <;> rfl

theorem sort_pairwise [Std.TransCmp cmp] (xs : List α) :
    (sort cmp xs).Pairwise fun a b => (cmp a b).isLE := by
  have trans : ∀ a b c, (cmp a b != .gt) = true → (cmp b c != .gt) = true →
      (cmp a c != .gt) = true := by
    intro a b c ab bc
    rw [ne_gt_eq_isLE] at ab bc ⊢
    exact Std.TransCmp.isLE_trans ab bc
  have total : ∀ a b, (cmp a b != .gt || cmp b a != .gt) = true := by
    intro a b
    have swapped : cmp b a = (cmp a b).swap := Std.OrientedCmp.eq_swap
    rw [swapped]
    cases cmp a b <;> rfl
  simpa only [sort, ne_gt_eq_isLE] using List.pairwise_mergeSort trans total xs

/-- Where only equal elements compare equal, a list has one sorted form. -/
theorem sort_eq_of_perm [Std.TransCmp cmp] [Std.LawfulEqCmp cmp] {xs ys : List α}
    (perm : xs.Perm ys) (sorted : ys.Pairwise fun a b => (cmp a b).isLE) : sort cmp xs = ys := by
  refine ((sort_perm cmp xs).trans perm).eq_of_pairwise ?_ (sort_pairwise xs) sorted
  intro a b _ _ ab ba
  exact Std.LawfulEqCmp.eq_of_compare (Std.OrientedCmp.isLE_antisymm ab ba)

/-- Of strictly ascending elements there is one sorted form. -/
theorem sort_eq_of_ascending [Std.TransCmp cmp] {xs ys : List α} (perm : xs.Perm ys)
    (ascending : ys.Pairwise fun a b => cmp a b = .lt) : sort cmp xs = ys := by
  have symmetric : Std.Symm fun a b => cmp a b ≠ .eq :=
    ⟨fun a b ne same => ne (Std.OrientedCmp.eq_symm same)⟩
  have apart : ys.Pairwise fun a b => cmp a b ≠ .eq :=
    ascending.imp fun lt same => by simp [same] at lt
  refine ((sort_perm cmp xs).trans perm).eq_of_pairwise ?_ (sort_pairwise xs)
    (ascending.imp fun lt => by simp [lt])
  intro a b first second ab ba
  by_contra ne
  have inside := ((sort_perm cmp xs).trans perm).mem_iff.mp first
  exact apart.forall inside second ne (Std.OrientedCmp.isLE_antisymm ab ba)

theorem sort_of_pairwise {xs : List α} (sorted : xs.Pairwise fun a b => (cmp a b).isLE) :
    sort cmp xs = xs := by
  apply List.mergeSort_of_pairwise
  simpa only [ne_gt_eq_isLE] using sorted

theorem map_sort {cmp' : β → β → Ordering} (f : α → β) (same : ∀ a b, cmp a b = cmp' (f a) (f b))
    (xs : List α) : (sort cmp xs).map f = sort cmp' (xs.map f) :=
  List.map_mergeSort fun a _ b _ => by rw [same]

end Sorting

/-! ### Times -/

theorem max_time (s t : UInt64) : max s t = if s ≤ t then t else s := rfl

instance lawfulOrderMax_time : Std.LawfulOrderMax UInt64 where
  max_eq_or s t := by
    rw [max_time]
    split
    · exact .inr rfl
    · exact .inl rfl
  max_le_iff s t u := by
    rw [max_time]
    simp only [UInt64.le_iff_toNat_le]
    split <;> omega

end PacketQuery.Order
