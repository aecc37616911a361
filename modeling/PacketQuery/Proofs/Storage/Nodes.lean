import PacketQuery.Proofs.Storage.Names
import PacketQuery.Storage.FileTree
/-!
What stands at the end of names in a tree of files. A file that is written or removed changes what
stands at its own place; a directory that is made changes nothing that was there.
-/

namespace PacketQuery.Storage.FileTree

variable {α : Type} {tree tree' : FileTree α} {names place : List String} {name : String}

/-- A file with its content, or a directory without what it has. -/
inductive Kind (α : Type)
  | file (content : α)
  | directory

def kind : FileTree α → Kind α
  | .file content => .file content
  | .directory _ => .directory

def kind? (tree : FileTree α) (names : List String) : Option (Kind α) :=
  (tree.node? names).map kind

def IsDirectory (tree : FileTree α) (names : List String) : Prop :=
  tree.kind? names = some .directory

theorem isDirectory_of_node? {children : List (String × FileTree α)}
    (there : tree.node? names = some (directory children)) : tree.IsDirectory names := by
  rw [IsDirectory, kind?, there]
  rfl

theorem IsDirectory.node? (known : tree.IsDirectory names) :
    ∃ children, tree.node? names = some (directory children) := by
  obtain ⟨node, there, shape⟩ := Option.map_eq_some_iff.mp known
  cases node with
  | file content => cases shape
  | directory children => exact ⟨children, there⟩

theorem kind?_eq_file {content : α} (here : tree.kind? names = some (.file content)) :
    tree.node? names = some (file content) := by
  obtain ⟨node, there, shape⟩ := Option.map_eq_some_iff.mp here
  cases node with
  | file other =>
    cases shape
    exact there
  | directory children => cases shape

theorem kind?_eq_none : tree.kind? names = none ↔ tree.node? names = none :=
  Option.map_eq_none_iff

theorem isSome_kind? : (tree.kind? names).isSome = (tree.node? names).isSome :=
  Option.isSome_map

theorem node?_append (names rest : List String) :
    tree.node? (names ++ rest) = (tree.node? names).bind (·.node? rest) := by
  induction names generalizing tree with
  | nil => simp [FileTree.node?]
  | cons name names ih =>
    cases tree with
    | file content => simp [FileTree.node?]
    | directory children =>
      rw [List.cons_append, FileTree.node?, FileTree.node?]
      split
      next => exact ih
      next =>
        split
        next => exact ih
        next => rfl

theorem kind?_append_of_none (rest : List String) (absent : tree.kind? names = none) :
    tree.kind? (names ++ rest) = none := by
  rw [kind?_eq_none] at absent ⊢
  rw [node?_append, absent, Option.bind_none]

theorem kind?_append_of_file {rest : List String} {content : α} (nonempty : rest ≠ [])
    (here : tree.kind? names = some (.file content)) : tree.kind? (names ++ rest) = none := by
  obtain ⟨name, rest, rfl⟩ := List.exists_cons_of_ne_nil nonempty
  rw [kind?_eq_none, node?_append, kind?_eq_file here]
  rfl

/-- An empty directory holds no file, whatever names lead out of it. -/
theorem kind?_empty (names : List String) :
    (empty : FileTree α).kind? names = none ∨ (empty : FileTree α).IsDirectory names := by
  induction names with
  | nil => exact .inr rfl
  | cons name names ih =>
    have step : (empty : FileTree α).node? (name :: names)
        = if isOutside name then empty.node? names else none := rfl
    rw [IsDirectory, kind?, step]
    split
    next => exact ih
    next => exact .inl rfl

theorem eq_directory (known : tree.IsDirectory names) : ∃ top, tree = directory top := by
  cases tree with
  | file content => cases names <;> cases known
  | directory top => exact ⟨top, rfl⟩

theorem child?_filter_self (children : List (String × FileTree α)) (name : String) :
    child? (children.filter fun (other, _) => some other != some name) name = none := by
  simp [child?]

theorem child?_filter_of_ne (children : List (String × FileTree α)) {name other : String}
    (ne : other ≠ name) :
    child? (children.filter fun (key, _) => some key != some name) other
      = child? children other := by
  have kept : (fun entry : String × FileTree α => decide ((some entry.1 != some name) = true ∧
      (entry.1 == other) = true)) = fun entry => entry.1 == other := by
    funext entry
    by_cases same : entry.1 = other <;> simp [same, ne]
  rw [child?, child?, List.find?_filter, kept]

theorem IsName.not_isOutside (n : IsName name) : isOutside name = false := by
  have top : name ≠ "/" := by
    rintro rfl
    exact n.unslashed (by decide)
  simp [isOutside, n.ne_dots, top]

theorem node?_name (n : IsName name) (children : List (String × FileTree α)) :
    (directory children).node? [name] = child? children name := by
  rw [FileTree.node?, IsName.not_isOutside n]
  cases child? children name <;> rfl

/-- Names that go on below the top go on below the child, or in an empty place outside. -/
theorem node?_cons {top : List (String × FileTree α)} {rest : List String}
    (entered : ((directory top).node? (name :: rest)).isSome) (names : List String) :
    (directory top).node? (name :: names) = ((child? top name).getD empty).node? names := by
  rw [FileTree.node?] at entered ⊢
  cases found : child? top name with
  | some child => rfl
  | none =>
    rw [found] at entered
    by_cases outside : isOutside name = true
    · simp [outside]
    · simp [outside] at entered

theorem IsDirectory.isSome (known : tree.IsDirectory names) : (tree.node? names).isSome := by
  obtain ⟨children, there⟩ := known.node?
  rw [there]
  rfl

theorem isDirectory_child {top : List (String × FileTree α)}
    (known : (directory top).IsDirectory (name :: names)) :
    ((child? top name).getD empty).IsDirectory names := by
  have step := node?_cons known.isSome names
  rw [IsDirectory, kind?, ← step]
  exact known

/-- What is put at a place is found there. -/
theorem node?_withNode (node : FileTree α) (above : tree.IsDirectory place.dropLast)
    (rest : List String) : (withNode node tree place).node? (place ++ rest) = node.node? rest := by
  induction place generalizing tree with
  | nil => rfl
  | cons name place ih =>
    obtain ⟨top, rfl⟩ := eq_directory above
    rw [withNode, List.cons_append, FileTree.node?, child?_withChild_self]
    -- the directory above lies below the child only where another name follows
    cases place with
    | nil => rfl
    | cons next place =>
      rw [List.dropLast_cons_cons] at above
      exact ih (isDirectory_child above)

/-- What does not lie at or below the place stays. -/
theorem kind?_withNode {node : FileTree α} (above : tree.IsDirectory place.dropLast)
    (apart : ¬ place <+: names) : (withNode node tree place).kind? names = tree.kind? names := by
  induction place generalizing tree names with
  | nil => exact absurd List.nil_prefix apart
  | cons name place ih =>
    obtain ⟨top, rfl⟩ := eq_directory above
    cases names with
    | nil => rfl
    | cons other names =>
      rw [withNode, kind?, kind?]
      by_cases same : other = name
      · subst same
        rw [FileTree.node?, child?_withChild_self]
        have deeper : ¬ place <+: names := fun start =>
          apart (List.cons_prefix_cons.mpr ⟨rfl, start⟩)
        cases place with
        | nil => exact absurd List.nil_prefix deeper
        | cons next place =>
          rw [List.dropLast_cons_cons] at above
          rw [node?_cons above.isSome]
          exact ih (isDirectory_child above) deeper
      · rw [FileTree.node?, FileTree.node?, child?_withChild_of_ne _ _ same]

/-- The directories stay, and at most the given names in one of them lead to something else than
before. -/
structure SameBut (place : List String) (changed : List String) (tree tree' : FileTree α) :
    Prop where
  directories : ∀ {names}, tree.IsDirectory names → tree'.IsDirectory names
  others : ∀ {names name}, (names = place → name ∉ changed) →
    tree'.kind? (names ++ [name]) = tree.kind? (names ++ [name])

namespace SameBut

theorem refl (place changed : List String) (tree : FileTree α) :
    SameBut place changed tree tree :=
  ⟨id, fun _ => rfl⟩

theorem trans {changed changed' : List String} {first second third : FileTree α}
    (one : SameBut place changed first second) (two : SameBut place changed' second third) :
    SameBut place (changed ++ changed') first third where
  directories known := two.directories (one.directories known)
  others apart := by
    have apart_one := fun same member => apart same (List.mem_append_left _ member)
    have apart_two := fun same member => apart same (List.mem_append_right _ member)
    rw [two.others apart_two, one.others apart_one]

theorem mono {changed changed' : List String} {tree tree' : FileTree α}
    (same : SameBut place changed tree tree') (more : changed ⊆ changed') :
    SameBut place changed' tree tree' :=
  ⟨same.directories, fun apart => same.others fun here member => apart here (more member)⟩

/-- A change at one place where there is no directory. -/
theorem of_others (free : ¬ tree.IsDirectory (place ++ [name]))
    (others : ∀ names ≠ place ++ [name], tree'.kind? names = tree.kind? names) :
    SameBut place [name] tree tree' where
  directories {names} known := by
    rw [IsDirectory, others names fun same => free (same ▸ known)]
    exact known
  others {names key} apart := others _ fun same => by
    obtain ⟨rfl, same⟩ := List.append_inj' same rfl
    exact apart rfl (by simpa using same)

end SameBut

section File

variable (known : tree.IsDirectory place)
include known

theorem IsDirectory.above : tree.IsDirectory place.dropLast := by
  rcases List.eq_nil_or_concat' place with rfl | ⟨start, last, rfl⟩
  · exact known
  · rw [List.dropLast_concat]
    obtain ⟨children, there⟩ := known.node?
    rw [node?_append] at there
    obtain ⟨node, found, step⟩ := Option.bind_eq_some_iff.mp there
    cases node with
    | file content => cases step
    | directory children => exact isDirectory_of_node? found

/-- A file that is written is there, and nothing else has changed. -/
theorem put_spec (content : α) (free : ¬ tree.IsDirectory (place ++ [name])) :
    (withNode (file content) tree (place ++ [name])).kind? (place ++ [name])
        = some (.file content) ∧
      SameBut place [name] tree (withNode (file content) tree (place ++ [name])) := by
  have above : tree.IsDirectory (place ++ [name]).dropLast := by
    rwa [List.dropLast_concat]
  have written : (withNode (file content) tree (place ++ [name])).kind? (place ++ [name])
      = some (.file content) := by
    have here := node?_withNode (file content) above []
    rw [List.append_nil] at here
    rw [kind?, here]
    rfl
  refine ⟨written, .of_others free fun names ne => ?_⟩
  by_cases below : place ++ [name] <+: names
  · obtain ⟨rest, rfl⟩ := below
    have nonempty : rest ≠ [] := by
      rintro rfl
      exact ne (List.append_nil _)
    -- below the new file there is nothing, and there was nothing below what it replaces
    rw [kind?_append_of_file nonempty written]
    cases old : tree.kind? (place ++ [name]) with
    | none => rw [kind?_append_of_none rest old]
    | some old_ =>
      cases old_ with
      | file content => rw [kind?_append_of_file nonempty old]
      | directory => exact absurd old free
  · exact kind?_withNode above below

omit known in
theorem kind?_filter (n : IsName name) {children : List (String × FileTree α)} {content : α}
    (held : child? children name = some (file content)) (ne : names ≠ [name]) :
    (directory (children.filter fun (other, _) => some other != some name)).kind? names
      = (directory children).kind? names := by
  cases names with
  | nil => rfl
  | cons key rest =>
    rw [kind?, kind?, FileTree.node?, FileTree.node?]
    by_cases same : key = name
    · subst same
      obtain ⟨next, rest, rfl⟩ := List.exists_cons_of_ne_nil (mt (congrArg (key :: ·)) ne)
      rw [child?_filter_self, held, IsName.not_isOutside n]
      rfl
    · rw [child?_filter_of_ne _ same]

omit known in
theorem withoutFile_of_no_file (absent : ∀ content, tree.kind? names ≠ some (.file content)) :
    tree.withoutFile names = tree := by
  unfold withoutFile
  split
  next content _ found _ =>
    refine absurd ?_ (absent content)
    rw [kind?, found]
    rfl
  next => rfl

omit known in
/-- A file is removed from among the entries of its directory. -/
theorem withoutFile_of_file {children : List (String × FileTree α)} {content : α}
    (known : tree.node? place = some (directory children))
    (here : tree.kind? (place ++ [name]) = some (.file content)) :
    tree.withoutFile (place ++ [name])
      = withNode (directory (children.filter fun (other, _) => some other != some name)) tree
        place := by
  rw [withoutFile, kind?_eq_file here, List.dropLast_concat, known]
  simp

/-- A file that is removed is there no more, and nothing else has changed. -/
theorem withoutFile_spec (n : IsName name) :
    (∀ content, (tree.withoutFile (place ++ [name])).kind? (place ++ [name])
        ≠ some (.file content)) ∧
      SameBut place [name] tree (tree.withoutFile (place ++ [name])) := by
  obtain ⟨children, there⟩ := known.node?
  by_cases file_ : ∃ content, tree.kind? (place ++ [name]) = some (.file content)
  · obtain ⟨content, old⟩ := file_
    have inside := node?_withNode (directory (children.filter fun (other, _) =>
      some other != some name)) known.above
    have held : child? children name = some (file content) := by
      have found := kind?_eq_file old
      rwa [node?_append, there, Option.bind_some, node?_name n] at found
    rw [withoutFile_of_file there old]
    refine ⟨?_, .of_others ?_ fun names ne => ?_⟩
    · rw [kind?, inside, node?_name n, child?_filter_self]
      exact nofun
    · rw [IsDirectory, old]
      exact nofun
    -- only what lies in the directory that lost the file is looked up in the new children
    by_cases below : place <+: names
    · obtain ⟨rest, rfl⟩ := below
      rw [kind?, kind?, inside, node?_append, there, Option.bind_some]
      exact kind?_filter n held (mt (congrArg (place ++ ·)) ne)
    · exact kind?_withNode known.above below
  · have absent content here := file_ ⟨content, here⟩
    rw [withoutFile_of_no_file absent]
    exact ⟨absent, .refl _ _ _⟩

end File

/-- Something has been made only where nothing was, and only directories. -/
def Grown (tree tree' : FileTree α) : Prop :=
  ∀ names, tree'.kind? names = tree.kind? names ∨
    (tree.kind? names = none ∧ tree'.IsDirectory names)

namespace Grown

theorem refl (tree : FileTree α) : Grown tree tree :=
  fun _ => .inl rfl

theorem trans {first second third : FileTree α} (one : Grown first second)
    (two : Grown second third) : Grown first third := by
  intro names
  rcases two names with same | ⟨absent, made⟩
  · rw [same, IsDirectory, same]
    exact one names
  · rcases one names with same | ⟨_, made'⟩
    · exact .inr ⟨same ▸ absent, made⟩
    · cases absent.symm.trans made'

theorem directories (grown : Grown tree tree') (known : tree.IsDirectory names) :
    tree'.IsDirectory names := by
  rcases grown names with same | ⟨absent, _⟩
  · exact same.trans known
  · cases absent.symm.trans known

theorem isSome (grown : Grown tree tree') (found : (tree.node? names).isSome) :
    (tree'.node? names).isSome := by
  rw [← isSome_kind?] at found ⊢
  rcases grown names with same | ⟨_, made⟩
  · rwa [same]
  · rw [made]
    rfl

theorem file (grown : Grown tree tree') {content : α}
    (found : tree.node? names = some (.file content)) :
    tree'.node? names = some (.file content) := by
  have here : tree.kind? names = some (.file content) := by
    rw [kind?, found]
    rfl
  rcases grown names with same | ⟨absent, _⟩
  · exact kind?_eq_file (same.trans here)
  · cases absent.symm.trans here

end Grown

/-- A directory that is made is there, and nothing that was there has changed. -/
theorem made_spec (place : List String) (above : tree.IsDirectory place.dropLast)
    (absent : tree.kind? place = none) : (withNode empty tree place).IsDirectory place ∧
      Grown tree (withNode empty tree place) := by
  have inside := node?_withNode empty above
  constructor
  · have here := inside []
    rw [List.append_nil] at here
    rw [IsDirectory, kind?, here]
    rfl
  intro names
  by_cases below : place <+: names
  · obtain ⟨rest, rfl⟩ := below
    have nothing := kind?_append_of_none rest absent
    have now : (withNode empty tree place).kind? (place ++ rest) = empty.kind? rest := by
      rw [kind?, inside, kind?]
    rw [nothing, IsDirectory, now]
    exact (kind?_empty rest).imp_right fun made => ⟨rfl, made⟩
  · exact .inl (kind?_withNode above below)

end PacketQuery.Storage.FileTree
