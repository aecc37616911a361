import PacketQuery.Proofs.Catalog.Listing
import PacketQuery.Proofs.Storage.Repeats
/-!
Writing tables lists no segment and hides none: the names that come and go in the directory of
tables, which may be that of the segments or lie in it, give no numbers of segments.
-/

namespace PacketQuery.Catalog

open Storage (IsName bind_eq_ok)
open Storage.FileTree (child? withChild child?_withChild_self child?_withChild_of_ne)

/-! ### Names without a number -/

theorem segmentId?_eq_none {name : String} (last : name.toList.getLast? ≠ some 'p') :
    Archive.segmentId? name = none := by
  have other (stem : List Char) :
      (name.toList == stem ++ Archive.segmentSuffix.toList) = false := by
    rw [beq_eq_false_iff_ne]
    intro same
    rw [same, List.getLast?_append] at last
    exact last rfl
  simp only [Archive.segmentId?, other, Bool.false_eq_true, if_false]

theorem segmentId?_outside {name : String} (outside : Storage.FileTree.isOutside name = true) :
    Archive.segmentId? name = none := by
  refine segmentId?_eq_none ?_
  rcases Bool.or_eq_true_iff.mp outside with dots | top
  · rw [beq_iff_eq.mp dots]
    decide
  · rw [beq_iff_eq.mp top]
    decide

section Children

variable {children : List (String × Files)} {name : String}

theorem numbersIn_withChild_of_some {old : Files} (there : child? children name = some old)
    (node : Files) : numbersIn (withChild children name node) = numbersIn children := by
  induction children with
  | nil => cases there
  | cons entry rest ih =>
    obtain ⟨other, held⟩ := entry
    unfold withChild
    by_cases same : other = name
    · subst same
      rw [if_pos (beq_self_eq_true _)]
      rfl
    · have unlike : (other == name) = false := by simpa using same
      have later : child? rest name = some old := by
        simpa [child?, List.find?_cons, unlike] using there
      rw [unlike, if_neg Bool.false_ne_true]
      simp only [numbersIn, List.filterMap_cons] at ih ⊢
      rw [ih later]

theorem numbersIn_withChild (number : Archive.segmentId? name = none) (node : Files) :
    numbersIn (withChild children name node) = numbersIn children := by
  induction children with
  | nil => simp [withChild, numbersIn, number]
  | cons entry rest ih =>
    obtain ⟨other, held⟩ := entry
    unfold withChild
    split
    next same =>
      rw [beq_iff_eq.mp same]
      rfl
    next =>
      simp only [numbersIn, List.filterMap_cons] at ih ⊢
      rw [ih]

theorem numbersIn_filter (number : Archive.segmentId? name = none) :
    numbersIn (children.filter fun (other, _) => some other != some name)
      = numbersIn children := by
  rw [numbersIn, numbersIn, List.filterMap_filter]
  refine List.filterMap_congr fun entry _ => ?_
  by_cases same : entry.1 = name
  · simp [same, number]
  · simp [same]

end Children

/-! ### Trees that list the same segments -/

/-- Every directory stays and lists the same segments. -/
def SameListing (files files' : Files) : Prop :=
  ∀ place children, files.node? place = some (.directory children) →
    ∃ children', files'.node? place = some (.directory children') ∧
      numbersIn children' = numbersIn children

namespace SameListing

variable {files files' files'' : Files} {place : List String} {name : String}
  {children : List (String × Files)}

theorem refl (files : Files) : SameListing files files :=
  fun _ children there => ⟨children, there, rfl⟩

theorem trans (one : SameListing files files') (two : SameListing files' files'') :
    SameListing files files'' := by
  intro place children there
  obtain ⟨children', there', same⟩ := one place children there
  obtain ⟨children'', there'', same'⟩ := two place children' there'
  exact ⟨children'', there'', same'.trans same⟩

theorem directories (same : SameListing files files') (known : files.IsDirectory place) :
    files'.IsDirectory place := by
  obtain ⟨children, there⟩ := known.node?
  obtain ⟨_, there', _⟩ := same place children there
  exact Storage.FileTree.isDirectory_of_node? there'

/-- A change in one directory that keeps what it and those below it list. -/
theorem below {node : Files} (known : files.node? place = some (.directory children))
    (inside : SameListing (.directory children) node) :
    SameListing files (.withNode node files place) := by
  induction place generalizing files with
  | nil =>
    cases known
    exact inside
  | cons name place ih =>
    cases files with
    | file content => cases known
    | directory top =>
      have entered : ((Storage.FileTree.directory top).node? (name :: place)).isSome := by
        rw [known]
        rfl
      have under := Storage.FileTree.node?_cons entered
      have deeper := ih ((under place).symm.trans known)
      intro names listed there
      cases names with
      | nil =>
        cases there
        refine ⟨_, rfl, ?_⟩
        cases found : child? top name with
        | some old => exact numbersIn_withChild_of_some found _
        | none =>
          refine numbersIn_withChild (segmentId?_outside ?_) _
          -- a name that leads on without a child leads outside
          by_contra inside
          simp [Storage.FileTree.node?, found, inside] at entered
      | cons other names =>
        rw [Storage.FileTree.withNode, Storage.FileTree.node?]
        by_cases same : other = name
        · subst same
          rw [child?_withChild_self]
          exact deeper names listed ((under names).symm.trans there)
        · rw [child?_withChild_of_ne _ _ same]
          exact ⟨listed, there, rfl⟩

theorem withNode_concat (known : files.node? place = some (.directory children)) (node : Files) :
    Storage.FileTree.withNode node files (place ++ [name])
      = .withNode (.directory (withChild children name node)) files place := by
  induction place generalizing files with
  | nil =>
    cases known
    rfl
  | cons first place ih =>
    cases files with
    | file content => cases known
    | directory top =>
      have entered : ((Storage.FileTree.directory top).node? (first :: place)).isSome := by
        rw [known]
        rfl
      have under := Storage.FileTree.node?_cons entered place
      rw [List.cons_append, Storage.FileTree.withNode, Storage.FileTree.withNode,
        ih (under.symm.trans known)]

section Name

variable (n : IsName name) (number : Archive.segmentId? name = none)
include n

/-- No directory lies under a name that is free of one. -/
theorem not_under (free : ¬ (Storage.FileTree.directory children).IsDirectory [name])
    (names : List String) (listed : List (String × Files)) :
    (Storage.FileTree.directory children).node? (name :: names) ≠ some (.directory listed) := by
  intro there
  have outside := Storage.FileTree.IsName.not_isOutside n
  rw [Storage.FileTree.IsDirectory, Storage.FileTree.kind?,
    Storage.FileTree.node?_name n] at free
  rw [Storage.FileTree.node?] at there
  cases found : child? children name with
  | none =>
    rw [found, outside] at there
    cases there
  | some child =>
    rw [found] at there free
    cases child with
    | file content => cases names <;> cases there
    | directory inner => exact free rfl

include number

theorem put (known : files.IsDirectory place) (free : ¬ files.IsDirectory (place ++ [name]))
    (content : Content) :
    SameListing files (.withNode (.file content) files (place ++ [name])) := by
  obtain ⟨children, there⟩ := known.node?
  rw [withNode_concat there]
  refine below there fun names listed held => ?_
  have free' : ¬ (Storage.FileTree.directory children).IsDirectory [name] := by
    rwa [Storage.FileTree.IsDirectory, Storage.FileTree.kind?, Storage.FileTree.node?_append,
      there, Option.bind_some] at free
  cases names with
  | nil =>
    cases held
    exact ⟨_, rfl, numbersIn_withChild number _⟩
  | cons other names =>
    by_cases same : other = name
    · subst same
      exact absurd held (not_under n free' names listed)
    · refine ⟨listed, ?_, rfl⟩
      rw [Storage.FileTree.node?, child?_withChild_of_ne _ _ same]
      exact held

theorem withoutFile (known : files.IsDirectory place) :
    SameListing files (files.withoutFile (place ++ [name])) := by
  obtain ⟨children, there⟩ := known.node?
  by_cases file : ∃ content, files.kind? (place ++ [name]) = some (.file content)
  · obtain ⟨content, here⟩ := file
    have free : ¬ (Storage.FileTree.directory children).IsDirectory [name] := by
      rw [Storage.FileTree.kind?, Storage.FileTree.node?_append, there, Option.bind_some] at here
      rw [Storage.FileTree.IsDirectory, Storage.FileTree.kind?, here]
      simp
    rw [Storage.FileTree.withoutFile_of_file there here]
    refine below there fun names listed held => ?_
    cases names with
    | nil =>
      cases held
      exact ⟨_, rfl, numbersIn_filter number⟩
    | cons other names =>
      by_cases same : other = name
      · subst same
        exact absurd held (not_under n free names listed)
      · refine ⟨listed, ?_, rfl⟩
        rw [Storage.FileTree.node?, Storage.FileTree.child?_filter_of_ne _ same]
        exact held
  · rw [Storage.FileTree.withoutFile_of_no_file fun content here => file ⟨content, here⟩]
    exact .refl files

end Name

/-- A path lists the same segments. -/
theorem list_eq (same : SameListing files files') {path : String}
    (listed : files.list path = .ok children) :
    ∃ children', files'.list path = .ok children' ∧ numbersIn children' = numbersIn children := by
  obtain ⟨node, resolved, shape⟩ := bind_eq_ok.mp listed
  obtain ⟨place, located, found⟩ := bind_eq_ok.mp resolved
  obtain ⟨p, parsed, walked⟩ := bind_eq_ok.mp located
  split at found
  next there =>
    cases found
    cases node with
    | file content => cases shape
    | directory held =>
      cases shape
      obtain ⟨children', there', numbers⟩ := same place children there
      have known := Storage.FileTree.isDirectory_of_node? there
      have walked' := Storage.FileTree.walk_kept same.directories walked known
      refine ⟨children', bind_eq_ok.mpr ⟨.directory children', bind_eq_ok.mpr
        ⟨place, bind_eq_ok.mpr ⟨p, parsed, walked'⟩, ?_⟩, rfl⟩, numbers⟩
      rw [there']
  next => cases found

end SameListing

/-! ### Tables -/

/-- Neither a table nor the journal beside it is the file of a segment. -/
theorem segmentId?_table {name : String} (table : name.toList.getLast? = some 'e') :
    Archive.segmentId? name = none ∧ Archive.segmentId? (name ++ "-journal") = none := by
  constructor
  · refine segmentId?_eq_none ?_
    rw [table]
    decide
  · refine segmentId?_eq_none ?_
    rw [getLast?_journal]
    decide

theorem sameListing_write {files files' : Files} {dir name : String} {place : List String}
    (d : IsTableDirectory files dir place) (t : IsTableFile name)
    (table : name.toList.getLast? = some 'e') {change : Tables → Tables}
    (written : Database.write files (Storage.join dir name) change = .ok files') :
    SameListing files files' := by
  obtain ⟨number, journal⟩ := segmentId?_table table
  rw [Database.write_eq d t] at written
  cases before : Database.tablesBefore files (Storage.join dir name) with
  | error fault =>
    rw [before] at written
    cases written
  | ok tables =>
    rw [before] at written
    cases written
    have free := (Database.free_of_tablesBefore d t before).2
    have one := SameListing.put t.file number d.known free (.tables (change tables))
    exact one.trans (.withoutFile t.journal journal (one.directories d.known))

end PacketQuery.Catalog
