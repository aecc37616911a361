import PacketQuery.Proofs.Storage.Nodes
/-!
Paths that lead to directories. What a directory has lies at the end of its path and the name, and
the path leads there as long as no directory is taken away.
-/

namespace PacketQuery.Storage

theorem bind_eq_ok {ε α β : Type} {x : Except ε α} {f : α → Except ε β} {b : β} :
    x >>= f = .ok b ↔ ∃ a, x = .ok a ∧ f a = .ok b := by
  cases x with
  | error fault => simp [bind, Except.bind]
  | ok a => simp [bind, Except.bind]

theorem mapError_eq_ok {ε ε' α : Type} {x : Except ε α} {f : ε → ε'} {y : α} :
    x.mapError f = .ok y ↔ x = .ok y := by
  cases x <;> simp [Except.mapError]

namespace FileTree

variable {α : Type} {tree tree' : FileTree α} {names place next : List String} {name : String}

theorem isDirectory_of_enter (entered : tree.enter place name = .ok next) :
    tree.IsDirectory place := by
  unfold enter at entered
  split at entered
  next there => exact isDirectory_of_node? there
  next => cases entered

theorem enter_eq (known : tree.IsDirectory place) (known' : tree'.IsDirectory place)
    (name : String) :
    tree'.enter place name = tree.enter place name := by
  obtain ⟨_, there⟩ := known.node?
  obtain ⟨_, there'⟩ := known'.node?
  simp only [enter, there, there']

theorem enter_cases (entered : tree.enter place name = .ok next) :
    (name = "." ∧ next = place) ∨ (name = ".." ∧ next = above place) ∨
      (name ≠ "." ∧ name ≠ ".." ∧ next = place ++ [name]) := by
  obtain ⟨_, there⟩ := (isDirectory_of_enter entered).node?
  simp only [enter, there] at entered
  split at entered
  next dot =>
    cases entered
    exact .inl ⟨by simpa using dot, rfl⟩
  next dot =>
    split at entered
    next dots =>
      cases entered
      exact .inr (.inl ⟨by simpa using dots, rfl⟩)
    next dots =>
      split at entered
      · cases entered
      · cases entered
        exact .inr (.inr ⟨by simpa using dot, by simpa using dots, rfl⟩)

theorem enter_name (known : tree.IsDirectory place) (n : IsName name) :
    tree.enter place name = .ok (place ++ [name]) := by
  obtain ⟨_, there⟩ := known.node?
  have short := Nat.not_lt.mpr n.short
  simp [enter, there, n.ne_dot, n.ne_dots, short]

theorem step_eq_ok : tree.step place name = .ok next ↔
    tree.enter place name = .ok next ∧ (tree.node? next).isSome := by
  rw [step, bind_eq_ok]
  constructor
  · rintro ⟨found, entered, stepped⟩
    split at stepped
    · cases stepped
      exact ⟨entered, ‹_›⟩
    · cases stepped
  · rintro ⟨entered, here⟩
    exact ⟨next, entered, if_pos here⟩

theorem foldlM_cons_eq_ok : (name :: names).foldlM tree.step place = .ok next ↔
    ∃ first, tree.step place name = .ok first ∧ names.foldlM tree.step first = .ok next := by
  rw [List.foldlM_cons, bind_eq_ok]

theorem foldlM_concat (walked : names.foldlM tree.step place = .ok next) (name : String) :
    (names ++ [name]).foldlM tree.step place = tree.step next name := by
  rw [List.foldlM_append, walked]
  change (tree.step next name).bind pure = _
  cases tree.step next name <;> rfl

theorem foldlM_concat_eq_ok (walked : (names ++ [name]).foldlM tree.step place = .ok next) :
    ∃ before, names.foldlM tree.step place = .ok before ∧ tree.step before name = .ok next := by
  rw [List.foldlM_append] at walked
  obtain ⟨before, first, _⟩ := bind_eq_ok.mp walked
  rw [← List.foldlM_append, foldlM_concat first] at walked
  exact ⟨before, first, walked⟩

theorem isDirectory_of_walk (walked : names.foldlM tree.step place = .ok next)
    (known : tree.IsDirectory next) : tree.IsDirectory place := by
  cases names with
  | nil =>
    cases walked
    exact known
  | cons name names =>
    obtain ⟨_, stepped, _⟩ := foldlM_cons_eq_ok.mp walked
    exact isDirectory_of_enter (step_eq_ok.mp stepped).1

theorem walk_kept (kept : ∀ {names}, tree.IsDirectory names → tree'.IsDirectory names)
    (walked : names.foldlM tree.step place = .ok next) (known : tree.IsDirectory next) :
    names.foldlM tree'.step place = .ok next := by
  induction names generalizing place with
  | nil => exact walked
  | cons name names ih =>
    obtain ⟨first, stepped, rest⟩ := foldlM_cons_eq_ok.mp walked
    have entered := (step_eq_ok.mp stepped).1
    have here := isDirectory_of_enter entered
    refine foldlM_cons_eq_ok.mpr ⟨first, step_eq_ok.mpr ⟨?_, ?_⟩, ih rest⟩
    · rwa [enter_eq here (kept here)]
    · exact (kept (isDirectory_of_walk rest known)).isSome

theorem walk_grown (grown : Grown tree tree')
    (walked : names.foldlM tree.step place = .ok next) :
    names.foldlM tree'.step place = .ok next := by
  induction names generalizing place with
  | nil => exact walked
  | cons name names ih =>
    obtain ⟨first, stepped, rest⟩ := foldlM_cons_eq_ok.mp walked
    obtain ⟨entered, found⟩ := step_eq_ok.mp stepped
    have here := isDirectory_of_enter entered
    refine foldlM_cons_eq_ok.mpr ⟨first, step_eq_ok.mpr ⟨?_, ?_⟩, ih rest⟩
    · rwa [enter_eq here (grown.directories here)]
    · exact grown.isSome found

/-- A file that can be read stays so while directories are made. -/
theorem resolve_grown (grown : Grown tree tree') {path : String} {content : α}
    (resolved : tree.resolve path = .ok (file content)) :
    tree'.resolve path = .ok (file content) := by
  obtain ⟨place, located, found⟩ := bind_eq_ok.mp resolved
  obtain ⟨p, parsed, walked⟩ := bind_eq_ok.mp located
  split at found
  next here =>
    cases found
    refine bind_eq_ok.mpr ⟨place, bind_eq_ok.mpr ⟨p, parsed, walk_grown grown walked⟩, ?_⟩
    rw [grown.file here]
  next => cases found

/-- Names without dots but for those that lead up from the top. -/
inductive IsStraight : List String → Prop
  | up {names : List String} (dots : names.all (· == "..") = true) : IsStraight names
  | down {names : List String} {name : String} (straight : IsStraight names) (ne_dot : name ≠ ".")
      (ne_dots : name ≠ "..") : IsStraight (names ++ [name])

/-- A place that names lead to as they stand. -/
structure IsReached (tree : FileTree α) (place : List String) : Prop where
  straight : IsStraight place
  walk : place.foldlM tree.step [] = .ok place

namespace IsReached

variable (reached : tree.IsReached place)
include reached

theorem concat (stepped : tree.step place name = .ok (place ++ [name])) :
    (place ++ [name]).foldlM tree.step [] = .ok (place ++ [name]) :=
  (foldlM_concat reached.walk name).trans stepped

theorem above_ (stepped : tree.step place ".." = .ok (above place)) :
    tree.IsReached (above place) := by
  -- `..` is added to leading dots, stays at the top, and takes back a name otherwise; only there
  -- the way to the place is cut short
  unfold above at stepped ⊢
  split
  next dots =>
    rw [if_pos dots] at stepped
    exact ⟨.up (by simp [dots]), reached.concat stepped⟩
  next dots =>
    split
    next => exact reached
    next =>
      cases reached.straight with
      | up dots' => exact absurd dots' dots
      | @down start last straight ne_dot ne_dots =>
        rw [List.dropLast_concat]
        refine ⟨straight, ?_⟩
        obtain ⟨before, first, stepped⟩ := foldlM_concat_eq_ok reached.walk
        rcases enter_cases (step_eq_ok.mp stepped).1 with ⟨dot, _⟩ | ⟨dots, _⟩ | ⟨_, _, same⟩
        · exact absurd dot ne_dot
        · exact absurd dots ne_dots
        · rwa [← List.append_cancel_right same] at first

/-- Read as it is written, a name leads where a step leads. -/
theorem step (stepped : tree.step place name = .ok next) :
    tree.IsReached next ∧ tree.shorten place name = .ok next := by
  rcases enter_cases (step_eq_ok.mp stepped).1 with ⟨rfl, rfl⟩ | ⟨rfl, rfl⟩ | ⟨ne_dot, ne_dots, rfl⟩
  · exact ⟨reached, rfl⟩
  · exact ⟨reached.above_ stepped, rfl⟩
  · have walked : tree.walk false (place ++ [name]) = .ok (place ++ [name]) :=
      reached.concat stepped
    refine ⟨⟨.down reached.straight ne_dot ne_dots, walked⟩, ?_⟩
    simp [shorten, ne_dot, ne_dots, walked]

theorem fold (walked : names.foldlM tree.step place = .ok next) :
    tree.IsReached next ∧ names.foldlM tree.shorten place = .ok next := by
  induction names generalizing place with
  | nil =>
    cases walked
    exact ⟨reached, rfl⟩
  | cons name names ih =>
    obtain ⟨first, stepped, rest⟩ := foldlM_cons_eq_ok.mp walked
    obtain ⟨reached', shorter⟩ := reached.step stepped
    obtain ⟨reached'', shortened⟩ := ih reached' rest
    refine ⟨reached'', ?_⟩
    rw [List.foldlM_cons, shorter]
    exact shortened

end IsReached

theorem isReached_start (top : List (String × FileTree α)) (fromTop : Bool) :
    (directory top).IsReached (if fromTop then ["/"] else []) := by
  cases fromTop with
  | false => exact ⟨.up rfl, rfl⟩
  | true =>
    have entered : (directory top).enter [] "/" = .ok ["/"] := rfl
    have here : ((directory top).node? ["/"]).isSome := by
      rw [node?]
      cases child? top "/" <;> rfl
    have stepped := step_eq_ok.mpr ⟨entered, here⟩
    have straight : IsStraight ([] ++ ["/"]) := .down (.up rfl) (by decide) (by decide)
    have walked : ([] ++ ["/"]).foldlM (directory top).step [] = .ok ["/"] :=
      (foldlM_concat rfl "/").trans stepped
    exact ⟨straight, walked⟩

/-- The path leads to a directory. -/
def Leads (tree : FileTree α) (path : String) (place : List String) : Prop :=
  ∃ p, Path.ofText path = .ok p ∧ tree.walk p.fromTop p.names = .ok place ∧
    tree.IsDirectory place

theorem Leads.mono {path : String} (l : tree.Leads path place)
    (kept : ∀ {names}, tree.IsDirectory names → tree'.IsDirectory names) :
    tree'.Leads path place := by
  obtain ⟨p, parsed, walked, known⟩ := l
  exact ⟨p, parsed, walk_kept kept walked known, kept known⟩

theorem leads_of_locate {path : String} (located : tree.locate path = .ok place)
    (known : tree.IsDirectory place) : tree.Leads path place := by
  obtain ⟨p, parsed, walked⟩ := bind_eq_ok.mp located
  refine ⟨p, parsed, ?_, known⟩
  cases slashed : p.slashed with
  | false => simpa [slashed] using walked
  | true =>
    -- a slash at the end is one more step, by a dot
    simp only [slashed, if_true] at walked
    obtain ⟨before, first, stepped⟩ := foldlM_concat_eq_ok walked
    rcases enter_cases (step_eq_ok.mp stepped).1 with ⟨_, same⟩ | ⟨wrong, _⟩ | ⟨wrong, _⟩
    · rwa [same]
    · exact absurd wrong (by decide)
    · exact absurd rfl wrong

theorem leads_of_list {path : String} {children : List (String × FileTree α)}
    (listed : tree.list path = .ok children) :
    ∃ place, tree.Leads path place ∧ tree.node? place = some (directory children) := by
  obtain ⟨node, resolved, shape⟩ := bind_eq_ok.mp listed
  obtain ⟨place, located, found⟩ := bind_eq_ok.mp resolved
  split at found
  next there =>
    cases found
    cases node with
    | file content => cases shape
    | directory found =>
      cases shape
      exact ⟨place, leads_of_locate located (isDirectory_of_node? there), there⟩
  next => cases found

section Join

variable {dir : String} (l : tree.Leads dir place) (n : IsName name)
include l n

theorem walk_join {p : Path} (parsed : Path.ofText dir = .ok p) :
    tree.walk p.fromTop (p.names ++ [name])
      = if (tree.node? (place ++ [name])).isSome then .ok (place ++ [name])
        else .error .notFound := by
  obtain ⟨p', parsed', walked, known⟩ := l
  cases parsed.symm.trans parsed'
  rw [walk, foldlM_concat walked, FileTree.step, enter_name known n]
  rfl

/-- What a directory has is found where its path and the name lead. -/
theorem resolve_join : tree.resolve (join dir name)
    = (Path.ofText (join dir name)).bind fun _ =>
      match tree.node? (place ++ [name]) with
      | some node => .ok node
      | none => .error .notFound := by
  obtain ⟨p, parsed, _⟩ := id l
  rw [resolve, locate]
  rcases ofText_join parsed n with long | parsed'
  · rw [long]
    rfl
  · have walked := walk_join l n parsed
    simp only [parsed', bind, Except.bind, Bool.false_eq_true, if_false, List.append_nil, walked]
    cases here : tree.node? (place ++ [name]) with
    | none => rfl
    | some node => simp [here]

theorem shortened_join : tree.shortened (join dir name)
    = (Path.ofText (join dir name)).map fun _ => place ++ [name] := by
  obtain ⟨p, parsed, walked, known⟩ := l
  rw [shortened]
  rcases ofText_join parsed n with long | parsed'
  · rw [long]
    rfl
  obtain ⟨top, rfl⟩ := eq_directory known
  obtain ⟨reached, shorter⟩ := (isReached_start top p.fromTop).fold walked
  have last : (directory top).shorten place name = .ok (place ++ [name]) := by
    have walked' : (directory top).walk false (place ++ [name])
        = if ((directory top).node? (place ++ [name])).isSome then .ok (place ++ [name])
          else .error .notFound := by
      refine (foldlM_concat reached.walk name).trans ?_
      rw [FileTree.step, enter_name known n]
      rfl
    rw [shorten, if_neg (by simpa using n.ne_dot), if_neg (by simpa using n.ne_dots), walked']
    cases ((directory top).node? (place ++ [name])).isSome <;> rfl
  simp only [parsed', bind, Except.bind, Except.map]
  rw [List.foldlM_append, shorter]
  change ((directory top).shorten place name).bind pure = _
  rw [last]
  rfl

end Join

theorem makeDirectory_cases {path : Path} (makes : tree.makeDirectory path = .ok tree') :
    ∃ start name before, path.names = start ++ [name] ∧
      tree.walk path.fromTop start = .ok before ∧
      tree.enter before name = .ok (before ++ [name]) ∧
      tree.node? (before ++ [name]) = none ∧ tree' = withNode empty tree (before ++ [name]) := by
  obtain ⟨target, found, makes⟩ := bind_eq_ok.mp makes
  unfold target? at found
  cases last : path.names.getLast? with
  | none =>
    rw [last] at found
    cases found
    cases makes
  | some name =>
    obtain ⟨start, shape⟩ := List.getLast?_eq_some_iff.mp last
    rw [last, shape, List.dropLast_concat] at found
    obtain ⟨before, walked, found⟩ := bind_eq_ok.mp found
    obtain ⟨next, entered, found⟩ := bind_eq_ok.mp found
    cases found
    rcases enter_cases entered with ⟨rfl, _⟩ | ⟨rfl, _⟩ | ⟨ne_dot, ne_dots, rfl⟩
    · cases makes
    · cases makes
    · have noDots : (name == "." || name == "..") = false := by
        simp [ne_dot, ne_dots]
      simp only [noDots, Bool.false_eq_true, if_false] at makes
      split at makes
      · cases makes
      next absent =>
        cases makes
        exact ⟨start, name, before, shape, walked, entered, by simpa using absent, rfl⟩

/-- A directory that is settled is there, and nothing that was there has changed. -/
theorem settle_spec {path : Path} (settled : tree.settle path = .ok tree') :
    Grown tree tree' ∧
      ∃ place, tree'.walk path.fromTop path.names = .ok place ∧ tree'.IsDirectory place := by
  unfold settle at settled
  split at settled
  next made makes =>
    cases settled
    obtain ⟨start, name, before, shape, walked, entered, absent, rfl⟩ := makeDirectory_cases makes
    have known := isDirectory_of_enter entered
    obtain ⟨here, grown⟩ := made_spec (before ++ [name])
      (by rwa [List.dropLast_concat]) (kind?_eq_none.mpr absent)
    refine ⟨grown, before ++ [name], ?_, here⟩
    rw [shape]
    refine (foldlM_concat (walk_kept grown.directories walked known) name).trans ?_
    exact step_eq_ok.mpr ⟨by rwa [enter_eq known (grown.directories known)], here.isSome⟩
  next =>
    split at settled
    next known =>
      cases settled
      refine ⟨.refl _, ?_⟩
      unfold hasDirectory at known
      split at known
      · cases known
      next place walked =>
        split at known
        next there => exact ⟨place, walked, isDirectory_of_node? there⟩
        next => cases known
    next => cases settled

theorem settleAll_grown (paths : List Path) (tree : FileTree α) :
    Grown tree (tree.settleAll paths).2 := by
  induction paths generalizing tree with
  | nil => exact .refl tree
  | cons path paths ih =>
    have above := ih tree
    unfold settleAll
    split
    next settled => exact (settle_spec settled).1
    next =>
      split
      next all =>
        rw [all] at above
        exact above
      next all =>
        rw [all] at above
        split
        next settled => exact above.trans (settle_spec settled).1
        next => exact above
    next => exact .refl tree

/-- The directory that has been made is there, and nothing that was there has changed. -/
theorem createDirectories_spec {path : String} {made : FileTree α}
    (creates : tree.createDirectories path = (.ok (), made)) :
    Grown tree made ∧ ∃ place, made.Leads path place := by
  unfold createDirectories at creates
  split at creates
  next => cases creates
  next p parsed =>
    have grown := settleAll_grown p.ancestors tree
    rw [creates] at grown
    refine ⟨grown, ?_⟩
    -- whichever way it ends, the last directory to be settled is the one asked for
    have settled : ∃ before, FileTree.settle before p = .ok made := by
      simp only [Path.ancestors, settleAll] at creates
      split at creates
      next settled =>
        cases creates
        exact ⟨tree, settled⟩
      next =>
        split at creates
        next => cases creates
        next =>
          split at creates
          next settled =>
            cases creates
            exact ⟨_, settled⟩
          next => cases creates
      next => cases creates
    obtain ⟨before, settled⟩ := settled
    obtain ⟨_, place, walked, known⟩ := settle_spec settled
    exact ⟨place, p, parsed, walked, known⟩

end FileTree

end PacketQuery.Storage
