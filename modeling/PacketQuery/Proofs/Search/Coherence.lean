import PacketQuery.Proofs.Rows.Counting
import PacketQuery.Proofs.Search.Diagnostics
/-!
What the parts of a result say of each other. A packet matches only if the catalogue has offered
it, so no more packets match than are counted; rows are those of packets or of groups of packets,
all cut to the columns; and every packet that matches is counted in one group.
-/

namespace PacketQuery.Search

open Catalog (Archive Files)
open PacketQuery.Language (Item Statement)

/-- The counters, times, rows, columns and errors of a result agree with each other. -/
structure IsCoherent (s : Statement) (r : Result) : Prop where
  matched_le_searched : r.matched ≤ r.searched
  matched_le_top : ∀ n, s.top = some n → r.matched ≤ n.toNat
  earliest_isSome : r.earliest.isSome ↔ 0 < r.matched
  latest_isSome : r.latest.isSome ↔ 0 < r.matched
  earliest_le_latest : ∀ first last, r.earliest = some first → r.latest = some last → first ≤ last
  rows_le_matched : (Plan.ofStatement s).grouped = false → r.rows.length ≤ r.matched
  cells : ∀ row ∈ r.rows, row.length = r.columns.length
  told : r.errors ≠ []
  noErrors_alone : noErrors ∈ r.errors → r.errors = [noErrors]
  /-- A cell of a column of counts shows the number of packets of its group, which is exact below
  `2 ^ 63`. -/
  counts : s.top = none → s.limit = none →
    ∀ (index : Nat) (argument : Option String) (name : String),
    (Plan.ofStatement s).items[index]? = some (.aggregate .count argument name) →
    ∃ counts : List Nat, counts.sum = r.matched ∧
      r.rows.map (·[index]?) = counts.map fun count => some (Rows.countCell count)

/-! ### What is found -/

section Found

variable (a : Archive) (files : Files) (s : Statement) (now : Int64)

/-- What a search finds in segments that lie in the given ranges. -/
def progressIn (options : Options) (extents : List Catalog.Extent) : Progress :=
  searchChunks a files s now (max options.workers 1) (s.top.map (·.toNat))
    (chunks (max options.workers 1) (segmentsFor options s extents))

theorem hitsOf_length_le (outcomes : List Outcome) : (hitsOf outcomes).length ≤ outcomes.length :=
  List.length_filterMap_le _ _

theorem within_length_le {α : Type} (room : Option Nat) (xs : List α) :
    (within room xs).length ≤ xs.length := by
  cases room with
  | none => exact Nat.le_refl _
  | some n => exact List.length_take_le' n xs

/-- A segment has no more places than the packets it offers. -/
theorem offered_places_le (id : UInt32) :
    (offered a files s id).places.length ≤ (visit a files s now id).searched := by
  obtain ⟨_, o, v⟩ | ⟨o, v⟩ | ⟨_, _, _, o, v⟩ | ⟨es, _, o, v⟩ := offered_cases a files s now id <;>
    rw [o, v] <;> simp

theorem chunkOutcomes_le (ids : List UInt32) :
    (chunkOutcomes a files s now ids).length ≤ offeredIn (visit a files s now) ids := by
  have places : (chunkOffer a files s ids).places.length
      = (ids.map fun id => (offered a files s id).places.length).sum := by
    rw [chunkOffer, offer, (Order.sort_perm _ _).length_eq, List.length_flatMap, List.map_map]
    rfl
  rw [chunkOutcomes, List.length_map, places, offeredIn]
  exact List.sum_le_sum fun id _ => offered_places_le a files s now id

theorem searchChunks_hits_le (workers : Nat) (room : Option Nat) (cs : List (List UInt32)) :
    (searchChunks a files s now workers room cs).hits.length
      ≤ (searchChunks a files s now workers room cs).searched := by
  induction cs generalizing room with
  | nil => exact Nat.le_refl 0
  | cons ids rest ih =>
    by_cases used : room = some 0
    · rw [used, searchChunks_used]
      exact Nat.le_refl 0
    · have chunk : (within room (hitsOf (chunkOutcomes a files s now ids))).length
          ≤ offeredIn (visit a files s now) ids :=
        (within_length_le _ _).trans
          ((hitsOf_length_le _).trans (chunkOutcomes_le a files s now ids))
      rw [searchChunks_cons a files s now used]
      simp only [Progress.append, List.length_append]
      exact Nat.add_le_add chunk (ih _)

/-- Every hit tells of a packet. -/
theorem ofPacket_of_mem_hits {workers : Nat} {room : Option Nat} {cs : List (List UInt32)}
    {hit : Hit} (member : hit ∈ (searchChunks a files s now workers room cs).hits) :
    ∃ p, hit = .ofPacket (.ofStatement s) p := by
  rw [searchChunks_hits] at member
  have found : hit ∈ hitsOf (cs.flatMap (chunkOutcomes a files s now)) := by
    cases room with
    | none => exact member
    | some n => exact List.mem_of_mem_take member
  obtain ⟨outcome, inside, taken⟩ := List.mem_filterMap.mp found
  obtain ⟨ids, _, inside⟩ := List.mem_flatMap.mp inside
  obtain ⟨place, _, rfl⟩ := List.mem_map.mp inside
  unfold resolve at taken
  dsimp only at taken
  split at taken
  next => cases taken
  next p _ =>
    split at taken
    next =>
      cases taken
      exact ⟨p, rfl⟩
    next => cases taken

end Found

/-! ### Rows and columns -/

section Rows

variable {s : Statement}

theorem Plan.lt_of_mem_keysOf {items : List Item} {grouped : Bool} {names : List String}
    {next key : Nat} (member : key ∈ keysOf items grouped next names) :
    key < items.length ∨
      (grouped = false ∧ key < next + (unprojected items names).length) := by
  induction names generalizing next with
  | nil => simp [keysOf] at member
  | cons name names ih =>
    unfold keysOf at member
    split at member
    next index column =>
      rcases List.mem_cons.mp member with rfl | later
      · exact .inl (List.findIdx?_eq_some_iff_findIdx_eq.mp column).1
      · rcases ih later with shown | ⟨flat, hidden⟩
        · exact .inl shown
        · exact .inr ⟨flat, by simpa [unprojected, column] using hidden⟩
    next column =>
      have extra : (unprojected items (name :: names)).length
          = (unprojected items names).length + 1 := by
        simp [unprojected, column]
      split at member
      next =>
        rcases ih member with shown | ⟨flat, _⟩
        · exact .inl shown
        · simp_all
      next flat =>
        rw [Bool.not_eq_true] at flat
        rcases List.mem_cons.mp member with rfl | later
        · exact .inr ⟨flat, by omega⟩
        · rcases ih later with shown | ⟨_, hidden⟩
          · exact .inl shown
          · exact .inr ⟨flat, by omega⟩

theorem length_row (g : Rows.Group) (items : List Item) (groupBy : List String) :
    (g.row items groupBy).length = items.length := by
  simp [Rows.Group.row]

theorem length_groupedRow {items : List Item} {groupBy : List String}
    {packets : List (List Value × List Value)} {row : List Value}
    (member : row ∈ Rows.groupedRows items groupBy packets) : row.length = items.length := by
  unfold Rows.groupedRows at member
  obtain ⟨g, _, rfl⟩ := List.mem_map.mp member
  exact length_row g items groupBy

theorem length_inputs_of_flat (flat : (Plan.ofStatement s).grouped = false) :
    (Plan.ofStatement s).inputs.length
      = (Plan.ofStatement s).items.length
        + (Plan.unprojected (Plan.ofStatement s).items s.orderBy).length := by
  simp only [Plan.ofStatement] at flat ⊢
  simp [flat]

/-- Before rows are cut, each has a value for every column and for every key to sort by. -/
theorem rowsOf_spec {hits : List Hit}
    (told : ∀ hit ∈ hits, ∃ p, hit = .ofPacket (.ofStatement s) p) :
    ∀ row ∈ rowsOf (.ofStatement s) hits, (Plan.ofStatement s).items.length ≤ row.length ∧
      ∀ key ∈ (Plan.ofStatement s).orderKeys, key < row.length := by
  intro row member
  have keys : ∀ key ∈ (Plan.ofStatement s).orderKeys, key < (Plan.ofStatement s).items.length ∨
      ((Plan.ofStatement s).grouped = false ∧ key < (Plan.ofStatement s).items.length
        + (Plan.unprojected (Plan.ofStatement s).items s.orderBy).length) :=
    fun key member => Plan.lt_of_mem_keysOf member
  unfold rowsOf at member
  split at member
  next grouped =>
    have length := length_groupedRow member
    refine ⟨Nat.le_of_eq length.symm, fun key among => ?_⟩
    rcases keys key among with shown | ⟨flat, _⟩
    · rwa [length]
    · rw [grouped] at flat
      cases flat
  next flat =>
    rw [Bool.not_eq_true] at flat
    obtain ⟨hit, inside, rfl⟩ := List.mem_map.mp member
    obtain ⟨p, rfl⟩ := told hit inside
    have length : (Hit.ofPacket (.ofStatement s) p).inputs.length
        = (Plan.ofStatement s).inputs.length := List.length_map _
    have inputs := length_inputs_of_flat flat
    refine ⟨by omega, fun key among => ?_⟩
    rcases keys key among with shown | ⟨_, hidden⟩ <;> omega

theorem keepFirst_sublist (seen : List String) (rows : List (List Value)) :
    (Rows.keepFirst seen rows).1.Sublist rows := by
  induction rows generalizing seen with
  | nil => exact .slnil
  | cons row rows ih =>
    rw [Rows.keepFirst]
    split
    next => exact (ih seen).cons row
    next => exact (ih _).cons_cons row

theorem topRows_sublist (top : Option UInt64) (rows : List (List Value)) :
    (Plan.topRows top rows).Sublist rows := by
  cases top with
  | none => exact .refl rows
  | some n => exact List.take_sublist _ _

theorem limitRows_sublist (limit : Option (UInt64 × UInt64)) (rows : List (List Value)) :
    (Plan.limitRows limit rows).Sublist rows := by
  cases limit with
  | none => exact .refl rows
  | some range => exact (List.take_sublist _ _).trans (List.drop_sublist _ _)

/-- The rows that are shown are some of those that were put into order. -/
theorem answer_rows_sublist (s : Statement) (hits : List Hit) :
    (answerOf s hits).rows.Sublist
      ((Plan.ofStatement s).arrange (rowsOf (.ofStatement s) hits)) := by
  refine (limitRows_sublist _ _).trans ((topRows_sublist _ _).trans ?_)
  split
  next => exact keepFirst_sublist [] _
  next => exact .refl _

theorem length_arranged {plan : Plan} {rows : List (List Value)}
    (long : ∀ row ∈ rows, plan.items.length ≤ row.length) :
    ∀ row ∈ plan.arrange rows, row.length = plan.items.length := by
  intro row member
  obtain ⟨whole, inside, rfl⟩ := List.mem_map.mp member
  rw [List.length_take]
  exact Nat.min_eq_left (long whole ((Order.sort_perm _ _).mem_iff.mp inside))

theorem length_arrange (plan : Plan) (rows : List (List Value)) :
    (plan.arrange rows).length = rows.length := by
  rw [Plan.arrange, List.length_map, (Order.sort_perm _ _).length_eq]

theorem length_columns (plan : Plan) (rows : List (List Value)) :
    (plan.columns rows).length = plan.items.length := by
  simp [Plan.columns]

/-- A column of a function makes rows of groups. -/
theorem grouped_of_column {index : Nat} {item : Item}
    (column : (Plan.ofStatement s).items[index]? = some item) (computed : item.isAggregate = true) :
    (Plan.ofStatement s).grouped = true := by
  have member := List.mem_of_getElem? column
  simp only [Plan.ofStatement] at member ⊢
  cases shown : s.projection with
  | wildcard =>
    rw [shown] at member
    obtain ⟨name, _, rfl⟩ := List.mem_map.mp member
    cases computed
  | items items =>
    rw [shown] at member
    have some_ : items.any Item.isAggregate = true := List.any_eq_true.mpr ⟨item, member, computed⟩
    simp [Language.Projection.hasAggregate, some_]

/-- Sorting rows moves the cells of a column. -/
theorem map_arrange_perm (plan : Plan) {index : Nat} (inside : index < plan.items.length)
    (rows : List (List Value)) :
    ((plan.arrange rows).map (·[index]?)).Perm (rows.map (·[index]?)) := by
  have cut : ∀ row : List Value, (row.take plan.items.length)[index]? = row[index]? :=
    fun row => List.getElem?_take_of_lt inside
  rw [Plan.arrange, List.map_map]
  refine .trans (.of_eq (List.map_congr_left fun row _ => cut row)) ?_
  exact (Order.sort_perm _ _).map _

theorem exists_of_map_perm {α β : Type} {f : α → β} {ys : List β} {xs : List α}
    (perm : ys.Perm (xs.map f)) : ∃ xs' : List α, xs'.Perm xs ∧ ys = xs'.map f := by
  have each : List.Forall₂ (fun y x => y = f x) (xs.map f) xs :=
    List.forall₂_map_left_iff.mpr (List.forall₂_same.mpr fun _ _ => rfl)
  obtain ⟨xs', same, perm'⟩ := List.perm_comp_forall₂ perm each
  refine ⟨xs', perm', ?_⟩
  clear perm perm' each
  induction same with
  | nil => rfl
  | cons here _ ih => rw [List.map_cons, here, ih]

/-- The counts shown in a column add up to the packets that matched. -/
theorem answer_counts (hits : List Hit) (topless : s.top = none) (unlimited : s.limit = none)
    {index : Nat} {argument : Option String} {name : String}
    (column : (Plan.ofStatement s).items[index]? = some (.aggregate .count argument name)) :
    ∃ counts : List Nat, counts.sum = hits.length ∧
      (answerOf s hits).rows.map (·[index]?)
        = counts.map fun count => some (Rows.countCell count) := by
  have grouped := grouped_of_column column rfl
  obtain ⟨counts, sum, cells⟩ := Rows.count_cells _ (Plan.ofStatement s).groupBy
    (hits.map fun hit => (hit.key, hit.inputs)) column
  have rows : (answerOf s hits).rows
      = (Plan.ofStatement s).arrange (rowsOf (.ofStatement s) hits) := by
    simp [answerOf, topless, unlimited, grouped, Plan.topRows, Plan.limitRows, Plan.arrange]
  have moved := map_arrange_perm (.ofStatement s) (List.getElem?_eq_some_iff.mp column).1
    (rowsOf (.ofStatement s) hits)
  have before : rowsOf (.ofStatement s) hits = Rows.groupedRows (Plan.ofStatement s).items
      (Plan.ofStatement s).groupBy (hits.map fun hit => (hit.key, hit.inputs)) := if_pos grouped
  rw [before, cells, ← before, ← rows] at moved
  obtain ⟨counts', perm, shown⟩ := exists_of_map_perm moved
  refine ⟨counts', ?_, shown⟩
  rw [perm.sum_eq, sum, List.length_map]

end Rows

/-! ### The result -/

theorem min?_le_max? {times : List UInt64} {first last : UInt64} (least : times.min? = some first)
    (greatest : times.max? = some last) : first ≤ last :=
  (List.max?_eq_some_iff.mp greatest).2 _ (List.min?_eq_some_iff.mp least).1

theorem errorsOf_spec (problems : List Problem) : errorsOf problems ≠ [] ∧
    (noErrors ∈ errorsOf problems → errorsOf problems = [noErrors]) := by
  unfold errorsOf
  split
  next => exact ⟨List.cons_ne_nil _ _, fun _ => rfl⟩
  next some_ =>
    refine ⟨by simpa using some_, fun member => ?_⟩
    obtain ⟨problem, _, said⟩ := List.mem_map.mp member
    exact absurd said (message_ne_noErrors problem)

/-- A result is coherent if it is made of no more hits than were offered and there is room for. -/
theorem coherent_resultOf {s : Statement} {p : Progress} (offered : p.hits.length ≤ p.searched)
    (roomy : ∀ n, s.top = some n → p.hits.length ≤ n.toNat)
    (told : ∀ hit ∈ p.hits, ∃ packet, hit = .ofPacket (.ofStatement s) packet) :
    IsCoherent s (resultOf s p) := by
  have answer : (resultOf s p).answer = answerOf s p.hits := answer_resultOf s p
  have matched : (resultOf s p).matched = p.hits.length := congrArg Answer.matched answer
  have rows : (resultOf s p).rows = (answerOf s p.hits).rows := congrArg Answer.rows answer
  have earliest : (resultOf s p).earliest = (p.hits.map (·.time)).min? :=
    congrArg Answer.earliest answer
  have latest : (resultOf s p).latest = (p.hits.map (·.time)).max? := congrArg Answer.latest answer
  have columns : (resultOf s p).columns.length = (Plan.ofStatement s).items.length := by
    refine (congrArg (·.columns.length) answer).trans ?_
    exact length_columns _ _
  have some_ : p.hits.map (·.time) ≠ [] ↔ 0 < p.hits.length := by
    rw [ne_eq, List.map_eq_nil_iff, List.length_pos_iff]
  have shown := answer_rows_sublist s p.hits
  have errors := errorsOf_spec p.problems
  rw [← errors_resultOf s p] at errors
  exact {
    matched_le_searched := by rwa [matched, searched_resultOf]
    matched_le_top := fun n top => matched ▸ roomy n top
    earliest_isSome := by rw [earliest, matched, List.isSome_min?_iff, some_]
    latest_isSome := by rw [latest, matched, List.isSome_max?_iff, some_]
    earliest_le_latest := fun first last least greatest =>
      min?_le_max? (earliest.symm.trans least) (latest.symm.trans greatest)
    rows_le_matched := fun flat => by
      have all := shown.length_le
      rw [length_arrange, rowsOf, flat] at all
      rw [rows, matched]
      simpa using all
    cells := fun row member => by
      rw [rows] at member
      rw [columns]
      exact length_arranged (fun row inside => (rowsOf_spec told row inside).1) row
        (shown.subset member)
    told := errors.1
    noErrors_alone := errors.2
    counts := fun topless unlimited index argument name column => by
      rw [rows, matched]
      exact answer_counts p.hits topless unlimited column }

/-- A search fails only where the ranges of the segments cannot be read. Otherwise its result is
coherent, and every key that its rows are sorted by lies inside each of them. -/
theorem execute_coherent (a : Archive) (files : Files) (options : Options) (s : Statement)
    (now : Int64) :
    match a.extents files with
    | .error fault => execute a files options s now = .error (.store fault)
    | .ok extents =>
      let p := progressIn a files s now options extents
      execute a files options s now = .ok (resultOf s p) ∧ IsCoherent s (resultOf s p) ∧
        ∀ row ∈ rowsOf (.ofStatement s) p.hits, ∀ key ∈ (Plan.ofStatement s).orderKeys,
          key < row.length := by
  unfold execute
  cases a.extents files with
  | error fault => rfl
  | ok extents =>
    let p := progressIn a files s now options extents
    have told : ∀ hit ∈ p.hits, ∃ packet, hit = .ofPacket (.ofStatement s) packet :=
      fun hit member => ofPacket_of_mem_hits a files s now member
    have roomy : ∀ n, s.top = some n → p.hits.length ≤ n.toNat := by
      intro n top
      have hits := searchChunks_hits a files s now (max options.workers 1)
        (chunks (max options.workers 1) (segmentsFor options s extents)) (s.top.map (·.toNat))
      change (searchChunks a files s now _ (s.top.map (·.toNat)) _).hits.length ≤ n.toNat
      rw [hits, top, Option.map_some, within_some]
      exact List.length_take_le _ _
    exact ⟨rfl, coherent_resultOf (searchChunks_hits_le a files s now _ _ _) roomy told,
      fun row member => (rowsOf_spec told row member).2⟩

end PacketQuery.Search
