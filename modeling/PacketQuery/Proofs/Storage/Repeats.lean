import PacketQuery.Proofs.Storage.Walks
/-!
What is there already is not changed by making it again: a directory that a path leads to, a file
that is written with the content that it has.
-/

namespace PacketQuery.Storage.FileTree

variable {α : Type} {tree : FileTree α} {names place : List String} {name : String}

theorem withChild_self {children : List (String × FileTree α)} {node : FileTree α}
    (there : child? children name = some node) : withChild children name node = children := by
  induction children with
  | nil => cases there
  | cons entry rest ih =>
    obtain ⟨other, old⟩ := entry
    unfold withChild
    by_cases same : other = name
    · subst same
      have held : old = node := by simpa [child?] using there
      rw [if_pos (beq_self_eq_true _), held]
    · have unlike : (other == name) = false := by simpa using same
      have later : child? rest name = some node := by
        simpa [child?, List.find?_cons, unlike] using there
      rw [unlike, if_neg Bool.false_ne_true, ih later]

/-- A file that is written as it is stays. -/
theorem withNode_self {content : α} (there : tree.node? names = some (file content)) :
    withNode (file content) tree names = tree := by
  induction names generalizing tree with
  | nil =>
    cases there
    rfl
  | cons name names ih =>
    cases tree with
    | file other => cases there
    | directory children =>
      rw [node?] at there
      cases found : child? children name with
      | some child =>
        rw [found] at there
        rw [withNode, found, Option.getD_some, ih there, withChild_self found]
      | none =>
        -- an empty place outside has no files
        rw [found] at there
        dsimp only at there
        split at there
        next =>
          rcases kind?_empty (α := α) names with absent | directory
          · rw [kind?_eq_none.mp absent] at there
            cases there
          · obtain ⟨children, shape⟩ := directory.node?
            cases shape.symm.trans there
        next => cases there

/-- A directory is not made where a path leads to one. -/
theorem settle_of_walk {path : Path} (walked : tree.walk path.fromTop path.names = .ok place)
    (known : tree.IsDirectory place) : tree.settle path = .ok tree := by
  obtain ⟨children, there⟩ := known.node?
  have here : tree.hasDirectory path = true := by
    rw [hasDirectory, walked]
    dsimp only
    rw [there]
  unfold settle
  split
  next made makes =>
    obtain ⟨start, name, before, shape, first, entered, absent, _⟩ := makeDirectory_cases makes
    rw [walk, shape, foldlM_concat first] at walked
    have found := (step_eq_ok.mp walked).2
    cases entered.symm.trans (step_eq_ok.mp walked).1
    rw [absent] at found
    cases found
  next => rw [here, if_pos rfl]

theorem createDirectories_of_leads {path : String} (l : tree.Leads path place) :
    tree.createDirectories path = (.ok (), tree) := by
  obtain ⟨p, parsed, walked, known⟩ := l
  rw [createDirectories, parsed]
  simp only [Path.ancestors, settleAll, settle_of_walk walked known]

end PacketQuery.Storage.FileTree
