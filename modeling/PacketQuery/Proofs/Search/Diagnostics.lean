import Mathlib
import PacketQuery.Proofs.Search.Sequential
import PacketQuery.Proofs.Search.Wording
/-!
What a search counts and reports depends on the number of workers, which sets how many segments
are taken together. A chunk is counted as a whole even if TOP is reached in its first segment, and
tells of the segments that cannot be read before it tells of packets that are not there. So counts
agree only where no segment is left when TOP is reached, and reports keep their order only where no
segment that cannot be read follows one with a packet that is not there.
-/

namespace PacketQuery.Search

open Catalog (Archive Entry Extent Files Mask)
open PacketQuery.Language (Statement)

/-- One progress counts and reports no more than another. -/
structure Progress.AtMost (p q : Progress) : Prop where
  searched : p.searched ≤ q.searched
  problems : (p.problems : Multiset Problem) ≤ q.problems

namespace Progress.AtMost

theorem none (p : Progress) : Progress.none.AtMost p :=
  ⟨Nat.zero_le _, Multiset.zero_le _⟩

theorem append {p q p' q' : Progress} (first : p.AtMost q) (second : p'.AtMost q') :
    (p.append p').AtMost (q.append q') := by
  refine ⟨Nat.add_le_add first.searched second.searched, ?_⟩
  simp only [Progress.append, ← Multiset.coe_add]
  exact add_le_add first.problems second.problems

end Progress.AtMost

section Visits

variable (visit : UInt32 → Visit)

def offeredIn (ids : List UInt32) : Nat :=
  (ids.map fun id => (visit id).searched).sum

/-- Why segments could not be read. -/
def unreadableIn (ids : List UInt32) : List Problem :=
  ids.flatMap fun id => (visit id).problems

def outcomesIn (ids : List UInt32) : List Outcome :=
  ids.flatMap fun id => (visit id).outcomes

/-- No segment that cannot be read comes after one with a packet that is not there. -/
def Orderly (ids : List UInt32) : Prop :=
  ids.Pairwise fun i j => problemsOf (visit i).outcomes = [] ∨ (visit j).problems = []

instance (ids : List UInt32) : Decidable (Orderly visit ids) :=
  inferInstanceAs (Decidable (List.Pairwise _ _))

/-- Where TOP ends a pass, nothing is left to count or report. -/
structure Thorough (room : Option Nat) (ids : List UInt32) : Prop where
  searched : (pass visit room ids).searched = (pass visit none ids).searched
  problems : (pass visit room ids).problems = (pass visit none ids).problems

theorem pass_searched_none (ids : List UInt32) :
    (pass visit none ids).searched = offeredIn visit ids := by
  induction ids with
  | nil => rfl
  | cons id ids ih =>
    rw [pass_cons visit (by simp), roomAfter_none, Progress.append, ih]
    rfl

theorem pass_problems_none (ids : List UInt32) :
    (pass visit none ids).problems
      = ids.flatMap fun id => (visit id).problems ++ problemsOf (visit id).outcomes := by
  induction ids with
  | nil => rfl
  | cons id ids ih =>
    have found := walk_of_left (by simp : roomAfter none (hitsOf (visit id).outcomes) ≠ some 0)
    rw [pass_cons visit (by simp), roomAfter_none, Progress.append, ih, found, List.flatMap_cons]

theorem pass_searched_le (ids : List UInt32) (room : Option Nat) :
    (pass visit room ids).searched ≤ offeredIn visit ids := by
  induction ids generalizing room with
  | nil => exact Nat.le_refl 0
  | cons id ids ih =>
    by_cases used : room = some 0
    · rw [used, pass_used]
      exact Nat.zero_le _
    · rw [pass_cons visit used]
      exact Nat.add_le_add_left (ih _) _

/-- What a pass reports, sorted by kind. -/
theorem pass_problems_le (ids : List UInt32) (room : Option Nat) :
    ((pass visit room ids).problems : Multiset Problem)
      ≤ unreadableIn visit ids + (walk room (outcomesIn visit ids)).2 := by
  induction ids generalizing room with
  | nil => exact Multiset.zero_le _
  | cons id ids ih =>
    by_cases used : room = some 0
    · rw [used, pass_used]
      exact Multiset.zero_le _
    · have rest := ih (roomAfter room (hitsOf (visit id).outcomes))
      rw [pass_cons visit used]
      simp only [Progress.append, outcomesIn, unreadableIn, List.flatMap_cons, walk_append,
        ← Multiset.coe_add]
      rw [add_add_add_comm]
      exact add_le_add_right rest _

theorem pass_problems_none_coe (ids : List UInt32) :
    ((pass visit none ids).problems : Multiset Problem)
      = unreadableIn visit ids + problemsOf (outcomesIn visit ids) := by
  induction ids with
  | nil => rfl
  | cons id ids ih =>
    rw [pass_problems_none] at ih ⊢
    simp only [outcomesIn, unreadableIn, List.flatMap_cons, problemsOf_append,
      ← Multiset.coe_add] at ih ⊢
    rw [ih, add_add_add_comm]

/-- Segments in order tell of their own troubles and their packets in turn. -/
theorem append_problems_of_orderly {ids : List UInt32} (orderly : Orderly visit ids) :
    unreadableIn visit ids ++ problemsOf (outcomesIn visit ids)
      = ids.flatMap fun id => (visit id).problems ++ problemsOf (visit id).outcomes := by
  induction ids with
  | nil => rfl
  | cons id ids ih =>
    obtain ⟨first, rest⟩ := List.pairwise_cons.mp orderly
    rw [unreadableIn, outcomesIn, List.flatMap_cons, List.flatMap_cons, List.flatMap_cons,
      ← ih rest, problemsOf_append, ← unreadableIn, ← outcomesIn]
    by_cases whole : problemsOf (visit id).outcomes = []
    · simp [whole]
    · have readable : unreadableIn visit ids = [] :=
        List.flatMap_eq_nil_iff.mpr fun j member => (first j member).resolve_left whole
      simp [readable]

/-- Where fewer packets match than there is room for, a pass goes to the end. -/
theorem pass_of_left {ids : List UInt32} {room : Option Nat}
    (left : roomAfter room (hitsOf (outcomesIn visit ids)) ≠ some 0) :
    pass visit room ids = pass visit none ids := by
  induction ids generalizing room with
  | nil => rfl
  | cons id ids ih =>
    rw [outcomesIn, List.flatMap_cons, hitsOf_append] at left
    have first := left_of_append left
    have start : room ≠ some 0 := by
      rintro rfl
      simp at first
    rw [roomAfter_append] at left
    have same : walk room (visit id).outcomes = walk none (visit id).outcomes := by
      apply Prod.ext
      · rw [walk_hits, walk_hits, within_of_left first, within_none]
      · rw [walk_of_left first, walk_of_left (by simp)]
    rw [pass_cons visit start, pass_cons visit (by simp), ih left, same, roomAfter_none]

theorem thorough_of_left {ids : List UInt32} {room : Option Nat}
    (left : roomAfter room (hitsOf (outcomesIn visit ids)) ≠ some 0) : Thorough visit room ids := by
  have same := pass_of_left visit left
  exact ⟨congrArg Progress.searched same, congrArg Progress.problems same⟩

theorem isOfPacket_of_mem {outcomes : List Outcome} {p : Problem} (h : p ∈ problemsOf outcomes) :
    p.isOfPacket = true := by
  obtain ⟨outcome, _, found⟩ := List.mem_filterMap.mp h
  cases outcome <;> cases found
  rfl

theorem pass_append (xs ys : List UInt32) (room : Option Nat) :
    pass visit room (xs ++ ys) = (pass visit room xs).append
      (pass visit (roomAfter room (hitsOf (outcomesIn visit xs))) ys) := by
  induction xs generalizing room with
  | nil => simp [outcomesIn, Progress.append, Progress.none]
  | cons id xs ih =>
    by_cases used : room = some 0
    · simp [used, pass_used, Progress.append, Progress.none]
    · rw [List.cons_append, pass_cons visit used, pass_cons visit used, ih, outcomesIn, outcomesIn,
        List.flatMap_cons, hitsOf_append, roomAfter_append]
      simp [Progress.append, Nat.add_assoc]

end Visits

section Chunks

variable (a : Archive) (files : Files) (s : Statement) (now : Int64)

theorem searched_offer (ids : List UInt32) :
    (chunkOffer a files s ids).searched
      = offeredIn (visit a files s now) ids := by
  simp only [offer, offeredIn, ← offered_searched a files s now]
  rw [List.sum_eq_foldl, List.foldl_map, List.foldl_map]

theorem problems_offer (ids : List UInt32) :
    (chunkOffer a files s ids).problems
      = unreadableIn (visit a files s now) ids := by
  simp only [offer, unreadableIn, ← offered_problems a files s now, List.flatMap_map]

def settledIn (workers : Nat) (room : Option Nat) (ids : List UInt32) : List Problem :=
  (settleBatches (resolve (.ofStatement s) now (chunkOffer a files s ids).opened) room
    (chunks (workers * packetsPerWorker) (chunkOffer a files s ids).places)).problems

theorem searchChunks_used (workers : Nat) (rest : List (List UInt32)) :
    searchChunks a files s now workers (some 0) rest = .none := by
  cases rest <;> simp [searchChunks]

theorem searchChunks_cons {room : Option Nat} (left : room ≠ some 0) (workers : Nat)
    (ids : List UInt32) (rest : List (List UInt32)) :
    searchChunks a files s now workers room (ids :: rest) =
      Progress.append
        ⟨within room (hitsOf (chunkOutcomes a files s now ids)),
          offeredIn (visit a files s now) ids,
          unreadableIn (visit a files s now) ids ++ settledIn a files s now workers room ids⟩
        (searchChunks a files s now workers
          (roomAfter room (hitsOf (chunkOutcomes a files s now ids))) rest) := by
  rw [searchChunks, if_neg (by simpa using left)]
  simp only [settleBatches_hits, flatten_chunks, searched_offer a files s now,
    problems_offer a files s now, roomAfter_within]
  rfl

variable {ids : List UInt32} (increasing : ids.Pairwise (· < ·))
include increasing

theorem chunkOutcomes_eq : chunkOutcomes a files s now ids = outcomesIn (visit a files s now) ids :=
  map_resolve_places a files s now increasing

theorem settledIn_isPrefix (workers : Nat) (room : Option Nat) :
    settledIn a files s now workers room ids
      <+: problemsOf (outcomesIn (visit a files s now) ids) := by
  rw [← chunkOutcomes_eq a files s now increasing, chunkOutcomes,
    ← flatten_chunks (workers * packetsPerWorker) (chunkOffer a files s ids).places]
  exact settleBatches_problems _ _ room

theorem walk_isPrefix (workers : Nat) (room : Option Nat) :
    (walk room (outcomesIn (visit a files s now) ids)).2
      <+: settledIn a files s now workers room ids := by
  rw [← chunkOutcomes_eq a files s now increasing, chunkOutcomes,
    ← flatten_chunks (workers * packetsPerWorker) (chunkOffer a files s ids).places]
  exact walk_settleBatches _ _ room

omit increasing

/-- What a search counts and reports lies between what a pass up to TOP and a pass to the end do. -/
theorem searchChunks_bounds (workers : Nat) (cs : List (List UInt32)) (room : Option Nat)
    (increasing : cs.flatten.Pairwise (· < ·)) :
    (pass (visit a files s now) room cs.flatten).AtMost
        (searchChunks a files s now workers room cs) ∧
      (searchChunks a files s now workers room cs).AtMost
        (pass (visit a files s now) none cs.flatten) := by
  induction cs generalizing room with
  | nil => exact ⟨.none _, .none _⟩
  | cons ids rest ih =>
    by_cases used : room = some 0
    · rw [used, pass_used, searchChunks_used]
      exact ⟨.none _, .none _⟩
    · rw [List.flatten_cons, List.pairwise_append] at increasing
      obtain ⟨chunk, later, _⟩ := increasing
      have tail := ih (roomAfter room (hitsOf (outcomesIn (visit a files s now) ids))) later
      have lower := (walk_isPrefix a files s now chunk workers room).sublist.subperm
      have upper := (settledIn_isPrefix a files s now chunk workers room).sublist.subperm
      rw [List.flatten_cons, pass_append, pass_append, roomAfter_none,
        searchChunks_cons a files s now used, chunkOutcomes_eq a files s now chunk]
      refine ⟨.append ⟨pass_searched_le _ ids room, ?_⟩ tail.1,
        .append ⟨(pass_searched_none _ ids).ge, ?_⟩ tail.2⟩
      · rw [← Multiset.coe_add]
        exact (pass_problems_le _ ids room).trans (add_le_add_right lower _)
      · rw [← Multiset.coe_add, pass_problems_none_coe]
        exact add_le_add_right upper _

/-- A chunk tells first of its segments that cannot be read, then of its packets that are not
there; where TOP ends the search, something may be missing. -/
theorem searchChunks_problems (workers : Nat) (cs : List (List UInt32)) (room : Option Nat)
    (increasing : cs.flatten.Pairwise (· < ·)) :
    (searchChunks a files s now workers room cs).problems.Sublist
      (cs.flatMap fun ids => unreadableIn (visit a files s now) ids
        ++ problemsOf (outcomesIn (visit a files s now) ids)) := by
  induction cs generalizing room with
  | nil => exact List.nil_sublist _
  | cons ids rest ih =>
    by_cases used : room = some 0
    · rw [used, searchChunks_used]
      exact List.nil_sublist _
    · rw [List.flatten_cons, List.pairwise_append] at increasing
      obtain ⟨chunk, later, _⟩ := increasing
      rw [searchChunks_cons a files s now used, List.flatMap_cons]
      refine List.Sublist.append ?_ (ih _ later)
      exact (settledIn_isPrefix a files s now chunk workers room).sublist.append_left _

/-- Nothing is lost to the chunks: together they tell of what a pass to the end tells of. -/
theorem coe_flatMap_problems (cs : List (List UInt32)) :
    ((cs.flatMap fun ids => unreadableIn (visit a files s now) ids
        ++ problemsOf (outcomesIn (visit a files s now) ids) : List Problem) : Multiset Problem)
      = (pass (visit a files s now) none cs.flatten).problems := by
  induction cs with
  | nil => rfl
  | cons ids rest ih =>
    rw [List.flatten_cons, pass_append, roomAfter_none, List.flatMap_cons, ← Multiset.coe_add, ih,
      ← Multiset.coe_add, ← pass_problems_none_coe]
    exact Multiset.coe_add _ _

theorem searchChunks_of_thorough (workers : Nat) (cs : List (List UInt32)) {room : Option Nat}
    (increasing : cs.flatten.Pairwise (· < ·))
    (thorough : Thorough (visit a files s now) room cs.flatten) :
    (searchChunks a files s now workers room cs).problems
      = cs.flatMap fun ids => unreadableIn (visit a files s now) ids
        ++ problemsOf (outcomesIn (visit a files s now) ids) := by
  -- a sublist as long as the whole is the whole, and the bounds meet where a pass is thorough
  have bounds := searchChunks_bounds a files s now workers cs room increasing
  have all : ((searchChunks a files s now workers room cs).problems : Multiset Problem)
      = (pass (visit a files s now) none cs.flatten).problems :=
    le_antisymm bounds.2.problems (thorough.problems ▸ bounds.1.problems)
  apply (searchChunks_problems a files s now workers cs room increasing).eq_of_length
  have sizes := congrArg Multiset.card (all.trans (coe_flatMap_problems a files s now cs).symm)
  simpa only [Multiset.coe_card] using sizes

theorem isOfPacket_of_mem_problems {id : UInt32} {p : Problem}
    (h : p ∈ (visit a files s now id).problems) : p.isOfPacket = false := by
  obtain ⟨_, _, v⟩ | ⟨_, v⟩ | ⟨_, _, _, _, v⟩ | ⟨_, _, _, v⟩ := offered_cases a files s now id <;>
    rw [v] at h
  · rw [List.mem_singleton.mp h]
    rfl
  · simp at h
  · rw [List.mem_singleton.mp h]
    rfl
  · simp at h

/-- The errors of one chunk have the order of the segments only if these are orderly. -/
theorem orderly_of_map_message {ids : List UInt32}
    (same : (unreadableIn (visit a files s now) ids
        ++ problemsOf (outcomesIn (visit a files s now) ids)).map Problem.message
      = (ids.flatMap fun id => (visit a files s now id).problems
        ++ problemsOf (visit a files s now id).outcomes).map Problem.message) :
    Orderly (visit a files s now) ids := by
  -- one chunk tells of segments before packets; read off the wording, this order carries over to
  -- the list that tells of segments and packets in turn
  have sorted : (unreadableIn (visit a files s now) ids
      ++ problemsOf (outcomesIn (visit a files s now) ids)).Pairwise
        fun p q => p.isOfPacket = true → q.isOfPacket = true := by
    rw [List.pairwise_append]
    refine ⟨?_, ?_, fun p _ q found _ => isOfPacket_of_mem found⟩
    · refine List.pairwise_of_forall_mem_list fun p found _ _ ofPacket => ?_
      obtain ⟨id, _, own⟩ := List.mem_flatMap.mp found
      rw [isOfPacket_of_mem_problems a files s now own] at ofPacket
      cases ofPacket
    · exact List.pairwise_of_forall_mem_list fun _ _ q found _ => isOfPacket_of_mem found
  have told : ((unreadableIn (visit a files s now) ids
      ++ problemsOf (outcomesIn (visit a files s now) ids)).map Problem.message).Pairwise
        fun m m' => tellsOfPacket m = true → tellsOfPacket m' = true := by
    rw [List.pairwise_map]
    simpa only [tellsOfPacket_message] using sorted
  rw [same, List.pairwise_map] at told
  simp only [tellsOfPacket_message] at told
  refine (List.pairwise_flatMap.mp told).2.imp fun {i j} follows => ?_
  cases missing : problemsOf (visit a files s now i).outcomes with
  | nil => exact .inl rfl
  | cons p _ =>
    refine .inr (List.eq_nil_iff_forall_not_mem.mpr fun q unreadable => ?_)
    have member : p ∈ problemsOf (visit a files s now i).outcomes := missing ▸ List.mem_cons_self
    have ofPacket := follows p (List.mem_append_right _ member) q
      (List.mem_append_left _ unreadable) (isOfPacket_of_mem member)
    rw [isOfPacket_of_mem_problems a files s now unreadable] at ofPacket
    cases ofPacket

theorem searched_singletons (workers : Nat) (ids : List UInt32) (room : Option Nat) :
    (searchChunks a files s now workers room (ids.map fun id => [id])).searched
      = (pass (visit a files s now) room ids).searched := by
  induction ids generalizing room with
  | nil => rfl
  | cons id ids ih =>
    by_cases used : room = some 0
    · rw [used, pass_used, searchChunks_used]
    · have own : chunkOutcomes a files s now [id] = (visit a files s now id).outcomes := by
        rw [chunkOutcomes_eq a files s now (List.pairwise_singleton _ _)]
        simp [outcomesIn]
      rw [List.map_cons, searchChunks_cons a files s now used, pass_cons _ used, own]
      simp [Progress.append, ih, offeredIn]

end Chunks

theorem chunks_one {α : Type} (xs : List α) : chunks 1 xs = xs.map fun x => [x] := by
  induction xs with
  | nil => simp [chunks]
  | cons x xs ih => rw [chunks]; simp [ih]

theorem chunks_of_length_le {α : Type} {size : Nat} {xs : List α} (nonempty : xs ≠ [])
    (fits : xs.length ≤ size) : chunks size xs = [xs] := by
  have positive := List.length_pos_iff.mpr nonempty
  have whole : size - 1 + 1 = size := by omega
  rw [chunks, dif_neg nonempty, whole, List.take_of_length_le fits,
    List.drop_eq_nil_of_le fits]
  simp [chunks]

section Results

variable (a : Archive) (files : Files) (s : Statement) (now : Int64) (prune : Bool)

/-- The result of a search with some number of workers, where the segments are catalogued. -/
def resultWith (extents : List Extent) (workers : Nat) : Result :=
  resultOf s (searchChunks a files s now (max workers 1) (s.top.map (·.toNat))
    (chunks (max workers 1) (segmentsFor ⟨workers, prune⟩ s extents)))

theorem execute_eq_ok {extents : List Extent} (known : a.extents files = .ok extents)
    (options : Options) : execute a files options s now
      = .ok (resultOf s (searchChunks a files s now (max options.workers 1) (s.top.map (·.toNat))
        (chunks (max options.workers 1) (segmentsFor options s extents)))) := by
  delta execute
  rw [known]

theorem execute_of_extents {extents : List Extent} (known : a.extents files = .ok extents)
    (workers : Nat) : execute a files ⟨workers, prune⟩ s now
      = .ok (resultWith a files s now prune extents workers) :=
  execute_eq_ok a files s now known ⟨workers, prune⟩

variable {ids : List UInt32} (increasing : ids.Pairwise (· < ·)) (room : Option Nat)
include increasing

/-- The counts agree where a pass up to TOP counts all, or TOP lets nothing through. -/
theorem searched_agree_iff :
    (∀ v w, (searchChunks a files s now (max v 1) room (chunks (max v 1) ids)).searched
        = (searchChunks a files s now (max w 1) room (chunks (max w 1) ids)).searched) ↔
      room = some 0 ∨ (pass (visit a files s now) room ids).searched
        = (pass (visit a files s now) none ids).searched := by
  constructor
  · intro agree
    by_cases used : room = some 0
    · exact .inl used
    · right
      cases ids with
      | nil => rfl
      | cons id ids =>
        have one_by_one := searched_singletons a files s now 1 (id :: ids) room
        have together : chunks (max (id :: ids).length 1) (id :: ids) = [id :: ids] :=
          chunks_of_length_le (by simp) (le_max_left _ _)
        have same := agree 1 (id :: ids).length
        rw [max_self, chunks_one, one_by_one, together,
          searchChunks_cons a files s now used] at same
        rw [same, pass_searched_none]
        rfl
  · rintro (used | all) v w
    · rw [used, searchChunks_used, searchChunks_used]
    · have exact_count : ∀ n, (searchChunks a files s now (max n 1) room
          (chunks (max n 1) ids)).searched = (pass (visit a files s now) none ids).searched := by
        intro n
        have bounds := searchChunks_bounds a files s now (max n 1) (chunks (max n 1) ids) room
          (by rwa [flatten_chunks])
        rw [flatten_chunks] at bounds
        exact le_antisymm bounds.2.searched (all ▸ bounds.1.searched)
      rw [exact_count, exact_count]

variable {room} (thorough : Thorough (visit a files s now) room ids)
include thorough

theorem problems_of_thorough (workers : Nat) :
    (searchChunks a files s now (max workers 1) room (chunks (max workers 1) ids)).problems
      = (chunks (max workers 1) ids).flatMap fun ids => unreadableIn (visit a files s now) ids
        ++ problemsOf (outcomesIn (visit a files s now) ids) :=
  searchChunks_of_thorough a files s now _ _ (by rwa [flatten_chunks]) (by rwa [flatten_chunks])

theorem errors_perm (v w : Nat) :
    (errorsOf (searchChunks a files s now (max v 1) room (chunks (max v 1) ids)).problems).Perm
      (errorsOf (searchChunks a files s now (max w 1) room (chunks (max w 1) ids)).problems) := by
  apply errorsOf_perm
  rw [problems_of_thorough a files s now increasing thorough,
    problems_of_thorough a files s now increasing thorough, ← Multiset.coe_eq_coe,
    coe_flatMap_problems, coe_flatMap_problems, flatten_chunks, flatten_chunks]

/-- The errors agree in their order exactly where the segments are orderly. -/
theorem errors_agree_iff :
    (∀ v w, errorsOf (searchChunks a files s now (max v 1) room (chunks (max v 1) ids)).problems
        = errorsOf (searchChunks a files s now (max w 1) room (chunks (max w 1) ids)).problems) ↔
      Orderly (visit a files s now) ids := by
  simp only [problems_of_thorough a files s now increasing thorough]
  constructor
  · intro agree
    cases ids with
    | nil => exact List.Pairwise.nil
    | cons id ids =>
      -- compare one worker with as many as there are segments
      have together : chunks (max (id :: ids).length 1) (id :: ids) = [id :: ids] :=
        chunks_of_length_le (by simp) (le_max_left _ _)
      have same := map_message_of_errorsOf (agree (id :: ids).length 1)
      rw [together, max_self, chunks_one, List.flatMap_singleton, List.flatMap_map] at same
      apply orderly_of_map_message a files s now
      simpa only [unreadableIn, outcomesIn, List.flatMap_singleton] using same
  · intro orderly v w
    have in_turn : ∀ size, ((chunks size ids).flatMap fun ids =>
        unreadableIn (visit a files s now) ids ++ problemsOf (outcomesIn (visit a files s now) ids))
          = ids.flatMap fun id => (visit a files s now id).problems
            ++ problemsOf (visit a files s now id).outcomes := by
      intro size
      have each : ∀ chunk ∈ chunks size ids,
          unreadableIn (visit a files s now) chunk
              ++ problemsOf (outcomesIn (visit a files s now) chunk)
            = chunk.flatMap fun id => (visit a files s now id).problems
              ++ problemsOf (visit a files s now id).outcomes := by
        intro chunk member
        have part := List.sublist_flatten_of_mem member
        rw [flatten_chunks] at part
        exact append_problems_of_orderly _ (orderly.sublist part)
      rw [List.flatMap_congr each, ← List.flatMap_assoc, List.flatMap_id', flatten_chunks]
    rw [in_turn, in_turn]

omit increasing thorough

/-- Counts and errors agree for all numbers of workers where TOP leaves nothing to count or report
and the segments are orderly. Either condition is needed: the counts agree only where a pass up to
TOP counts all, and the errors, which are the same but for their order where it reports all, have
one order only where the segments are orderly. -/
theorem diagnostics_agree_iff {extents : List Extent} (known : a.extents files = .ok extents)
    (increasing : extents.Pairwise fun e f => e.segment < f.segment) :
    let seen := visit a files s now
    let room := s.top.map (·.toNat)
    let ids := segmentsFor ⟨1, prune⟩ s extents
    ∃ r : Nat → Result, (∀ workers, execute a files ⟨workers, prune⟩ s now = .ok (r workers)) ∧
      (Thorough seen room ids → Orderly seen ids →
        ∀ v w, (r v).searched = (r w).searched ∧ (r v).errors = (r w).errors) ∧
      ((∀ v w, (r v).searched = (r w).searched) ↔
        room = some 0 ∨ (pass seen room ids).searched = (pass seen none ids).searched) ∧
      (Thorough seen room ids → (∀ v w, (r v).errors.Perm (r w).errors) ∧
        ((∀ v w, (r v).errors = (r w).errors) ↔ Orderly seen ids)) := by
  intro seen room ids
  have ascending : ids.Pairwise (· < ·) := segmentsFor_increasing increasing ⟨1, prune⟩ s
  have counted : ∀ workers, (resultWith a files s now prune extents workers).searched
      = (searchChunks a files s now (max workers 1) room (chunks (max workers 1) ids)).searched :=
    fun workers => searched_resultOf s _
  have reported : ∀ workers, (resultWith a files s now prune extents workers).errors
      = errorsOf (searchChunks a files s now (max workers 1) room
          (chunks (max workers 1) ids)).problems :=
    fun workers => errors_resultOf s _
  have counts := searched_agree_iff a files s now ascending room
  refine ⟨resultWith a files s now prune extents,
    execute_of_extents a files s now prune known, ?_⟩
  simp only [counted, reported]
  refine ⟨fun thorough orderly v w => ⟨?_, ?_⟩, counts, fun thorough => ⟨?_, ?_⟩⟩
  · exact counts.mpr (.inr thorough.searched) v w
  · exact (errors_agree_iff a files s now ascending thorough).mpr orderly v w
  · exact errors_perm a files s now ascending thorough
  · exact errors_agree_iff a files s now ascending thorough

end Results

theorem diagnostics_agree_pair :
    sampleArchive.extents samplePair = .ok [⟨1, 1000000, 1000000⟩, ⟨2, 1000000, 1000000⟩] ∧
    ∃ r r', execute sampleArchive samplePair ⟨1, false⟩ { sampleStatement with top := some 3 } 0
        = .ok r ∧
      execute sampleArchive samplePair ⟨2, false⟩ { sampleStatement with top := some 3 } 0
        = .ok r' ∧ r.searched = r'.searched ∧ r.errors = r'.errors := by
  obtain ⟨r, runs, agree, _⟩ := diagnostics_agree_iff sampleArchive samplePair
    { sampleStatement with top := some 3 } 0 false extents_samplePair (by decide)
  have both := agree (thorough_of_left _ (by decide +kernel)) (by decide +kernel) 1 2
  exact ⟨extents_samplePair, r 1, r 2, runs 1, runs 2, both⟩

/-- A segment that has lost its packet, and one without a catalogue. -/
def sampleGap : Files :=
  sampleFiles [(some ((sampleSegment 3000).take 24), some [sampleFirst]),
    (some (sampleSegment 1000), none)]

/-- A segment and the entries of one that is gone. -/
def sampleRemnant : Files :=
  sampleFiles [(some (sampleSegment 3000), some [sampleFirst]), (none, some [sampleFirst])]

/-- The errors of one search and of the next with more workers stand in different orders, and under
TOP a search with more workers counts more. -/
theorem diagnostics_depend_on_workers :
    (execute sampleArchive sampleGap ⟨1, false⟩ sampleStatement 0).toOption.map (·.errors)
        = some ["segment 1: no packet at offset 24",
          "segment 2: No index for segment 2 at index/segment_2.sqlite"] ∧
      (execute sampleArchive sampleGap ⟨2, false⟩ sampleStatement 0).toOption.map (·.errors)
        = some ["segment 2: No index for segment 2 at index/segment_2.sqlite",
          "segment 1: no packet at offset 24"] ∧
      (execute sampleArchive sampleRemnant ⟨1, false⟩ { sampleStatement with top := some 1 }
          0).toOption.map (·.searched) = some 1 ∧
      (execute sampleArchive sampleRemnant ⟨2, false⟩ { sampleStatement with top := some 1 }
          0).toOption.map (·.searched) = some 2 := by
  decide +kernel

end PacketQuery.Search
