import PacketQuery.Catalog.Archive
import PacketQuery.Proofs.Storage.Walks
/-!
Databases in a directory: what is written is read back, and nothing else changes but the journal
beside it.
-/

namespace PacketQuery.Catalog

open Storage (IsName Path join bind_eq_ok)
open Storage.FileTree (SameBut)

/-- The place of a directory of tables. Its path does not start a location. -/
structure IsTableDirectory (files : Files) (dir : String) (place : List String) : Prop where
  leads : files.Leads dir place
  local_ : ¬ "file:".toList <+: dir.toList

/-- A table file: beside it there may be a journal. -/
structure IsTableFile (name : String) : Prop where
  file : IsName name
  journal : IsName (name ++ "-journal")

namespace IsTableDirectory

variable {files files' : Files} {dir : String} {place : List String}
  (d : IsTableDirectory files dir place)
include d

theorem known : files.IsDirectory place := by
  obtain ⟨_, _, _, known⟩ := d.leads
  exact known

theorem nonempty : dir ≠ "" := by
  rintro rfl
  obtain ⟨_, parsed, _⟩ := d.leads
  cases parsed

theorem mono (kept : ∀ {names}, files.IsDirectory names → files'.IsDirectory names) :
    IsTableDirectory files' dir place :=
  ⟨d.leads.mono kept, d.local_⟩

end IsTableDirectory

namespace Database

theorem prefix_of_append_cons {α : Type} {p xs ys : List α} {c : α} (absent : c ∉ p)
    (start : p <+: xs ++ c :: ys) : p <+: xs := by
  induction p generalizing xs with
  | nil => exact List.nil_prefix
  | cons a p ih =>
    rw [List.mem_cons, not_or] at absent
    cases xs with
    | nil =>
      rw [List.nil_append, List.cons_prefix_cons] at start
      exact absurd start.1.symm absent.1
    | cons x xs =>
      rw [List.cons_append, List.cons_prefix_cons] at start
      exact List.cons_prefix_cons.mpr ⟨start.1, ih absent.2 start.2⟩

theorem ofText_of_local {text : String} (local_ : ¬ "file:".toList <+: text.toList) :
    Location.ofText text = .ok ⟨text, []⟩ := by
  unfold Location.ofText
  split
  next rest shape => exact absurd (shape ▸ ⟨'/' :: '/' :: rest, rfl⟩) local_
  next rest _ shape => exact absurd (shape ▸ ⟨rest, rfl⟩) local_
  next => rfl

/-- The path of a table is not too long for a database. -/
def fits (dir : String) (place : List String) (name : String) : Bool :=
  (Path.ofText (join dir name)).isOk && pathLength (place ++ [name]) ≤ maxPathLength

variable {files : Files} {dir name : String} {place : List String}
  (d : IsTableDirectory files dir place) (t : IsTableFile name)

include d in
theorem ofText_join (name : String) :
    Location.ofText (join dir name) = .ok ⟨join dir name, []⟩ := by
  obtain ⟨cs, start, _, joined⟩ := Storage.toList_join name d.nonempty
  apply ofText_of_local
  rw [joined]
  exact fun prefix_ => d.local_ ((prefix_of_append_cons (by decide) prefix_).trans start)

include d in
theorem isTransient_join {access : Access} (ne : access ≠ .memory) :
    (Location.mk (join dir name) []).isTransient ⟨access, "unix"⟩ = false := by
  obtain ⟨cs, _, _, joined⟩ := Storage.toList_join name d.nonempty
  have slash : '/' ∈ (join dir name).toList := by simp [joined]
  have named : join dir name ≠ "" := by
    intro same
    simp [same] at slash
  have onDisk : join dir name ≠ ":memory:" := by
    intro same
    simp [same] at slash
  simp [Location.isTransient, Location.isUnnamed, Settings.memorySystem, named, onDisk, ne]

include d t in
theorem namesOf?_join : namesOf? files (join dir name)
    = if fits dir place name then some (place ++ [name]) else none := by
  have top : (place ++ [name] == ["/"]) = false := by
    have unslashed : name ≠ "/" := by
      rintro rfl
      exact t.file.unslashed (by decide)
    rw [beq_eq_false_iff_ne]
    intro same
    have last := congrArg List.getLast? same
    rw [List.getLast?_concat] at last
    exact unslashed (Option.some.inj last)
  rw [namesOf?, Storage.FileTree.shortened_join d.leads t.file, fits]
  cases Path.ofText (join dir name) with
  | error fault => rfl
  | ok p =>
    simp only [Except.map, top, Bool.false_or, Except.isOk, Except.toBool, Bool.true_and,
      decide_eq_true_eq]
    by_cases long : maxPathLength < pathLength (place ++ [name])
    · rw [if_pos long, if_neg (by omega)]
    · rw [if_neg long, if_pos (by omega)]

include d t in
theorem open?_join {access : Access} (ne : access ≠ .memory) :
    open? files (join dir name) access = if fits dir place name then (do
      let content ← contentAt files (join dir name) (place ++ [name]) access
      if access == .readOnly && isUnfinished files (place ++ [name]) content then
        throw .unfinishedWrite
      return ⟨some (place ++ [name]), access == .readOnly, content⟩)
      else .error (.cannotOpen (join dir name)) := by
  have readOnly : (Location.mk (join dir name) []).isReadOnly ⟨access, "unix"⟩
      = (access == .readOnly) := by
    simp [Location.isReadOnly, Location.isImmutable]
  have changing : (Location.mk (join dir name) []).isImmutable = false := rfl
  have settings : (Location.mk (join dir name) []).settings access = .ok ⟨access, "unix"⟩ := rfl
  simp only [open?, ofText_join d, settings, isTransient_join d ne, readOnly, changing,
    namesOf?_join d t, bind, Except.bind, Bool.not_false, Bool.and_true]
  cases fits dir place name <;> rfl

/-- The tables that a write starts from, where it can start. -/
def tablesBefore (files : Files) (path : String) : Except DatabaseFault Tables := do
  (← open? files path .create).content.tablesOf

include d t in
theorem tablesBefore_join : tablesBefore files (join dir name) = if fits dir place name then
      match files.kind? (place ++ [name]) with
      | none => .ok .empty
      | some (.file content) => content.tablesOf
      | some .directory => .error (.cannotOpen (join dir name))
    else .error (.cannotOpen (join dir name)) := by
  obtain ⟨children, above⟩ := d.known.node?
  rw [tablesBefore, open?_join d t (by decide), Storage.FileTree.kind?]
  split
  next =>
    cases found : files.node? (place ++ [name]) with
    | none =>
      simp only [contentAt, found, List.dropLast_concat, above]
      rfl
    | some node =>
      cases node <;>
      · simp only [contentAt, found]
        rfl
  next => rfl

include d t in
/-- A write that can start has no directory in its way. -/
theorem free_of_tablesBefore {tables : Tables}
    (before : tablesBefore files (join dir name) = .ok tables) :
    fits dir place name = true ∧ ¬ files.IsDirectory (place ++ [name]) := by
  rw [tablesBefore_join d t] at before
  split at before
  next fits =>
    refine ⟨fits, fun there => ?_⟩
    rw [Storage.FileTree.IsDirectory] at there
    rw [there] at before
    cases before
  next => cases before

/-- A file of tables with no journal of an unfinished write beside it. -/
structure Settled (files : Files) (dir : String) (place : List String) (name : String)
    (tables : Tables) : Prop where
  fits : fits dir place name = true
  table : files.kind? (place ++ [name]) = some (.file (.tables tables))
  journal : ∀ content, files.kind? (place ++ [name ++ "-journal"]) ≠ some (.file content)

/-- The names that a write to a table changes. -/
def tableNames (name : String) : List String :=
  [name, name ++ "-journal"]

theorem ne_journal (name : String) : name ≠ name ++ "-journal" := by
  intro same
  have sizes := congrArg String.utf8ByteSize same
  rw [String.utf8ByteSize_append] at sizes
  have suffix : "-journal".utf8ByteSize = 8 := rfl
  omega

theorem journalOf_concat (place : List String) (name : String) :
    journalOf (place ++ [name]) = place ++ [name ++ "-journal"] := by
  simp [journalOf]

/-- What other names come to does not touch the table. -/
theorem Settled.mono {files' : Files} {names : List String} {tables : Tables}
    (settled : Settled files dir place name tables) (same : SameBut place names files files')
    (apart : name ∉ names) (journalApart : name ++ "-journal" ∉ names) :
    Settled files' dir place name tables where
  fits := settled.fits
  table := by rw [same.others fun _ => apart, settled.table]
  journal content := by
    rw [same.others fun _ => journalApart]
    exact settled.journal content

include d t

theorem tablesBefore_congr {files' : Files} (d' : IsTableDirectory files' dir place)
    (same : files'.kind? (place ++ [name]) = files.kind? (place ++ [name])) :
    tablesBefore files' (join dir name) = tablesBefore files (join dir name) := by
  rw [tablesBefore_join d t, tablesBefore_join d' t, same]

/-- A write to a file that can be changed changes its tables and takes away the journal. -/
theorem write_eq (change : Tables → Tables) :
    write files (join dir name) change = (tablesBefore files (join dir name)).map fun tables =>
      (Storage.FileTree.withNode (.file (.tables (change tables))) files
        (place ++ [name])).withoutFile (place ++ [name ++ "-journal"]) := by
  rw [write, tablesBefore, open?_join d t (by decide)]
  split
  next =>
    cases contentAt files (join dir name) (place ++ [name]) .create with
    | error fault => rfl
    | ok content =>
      rw [← journalOf_concat]
      change (content.tablesOf.bind _ : Except DatabaseFault Files) = content.tablesOf.map _
      cases content.tablesOf <;> rfl
  next => rfl

theorem write_of_tables {tables : Tables}
    (before : tablesBefore files (join dir name) = .ok tables) (change : Tables → Tables) :
    ∃ files', write files (join dir name) change = .ok files' ∧
      Settled files' dir place name (change tables) ∧
      SameBut place (tableNames name) files files' := by
  obtain ⟨fits, free⟩ := free_of_tablesBefore d t before
  obtain ⟨placed, one⟩ := Storage.FileTree.put_spec d.known
    (.tables (change tables)) free
  obtain ⟨removed, two⟩ := Storage.FileTree.withoutFile_spec (one.directories d.known) t.journal
  refine ⟨_, by rw [write_eq d t, before]; rfl, ⟨fits, ?_, removed⟩, one.trans two⟩
  rw [two.others fun _ => by simpa using ne_journal name, placed]

/-- What has been written is read. -/
theorem read_of_settled {tables : Tables} (settled : Settled files dir place name tables)
    {α : Type} (table : String) (pick : Tables → Option (List α)) {rows : List α}
    (picked : pick tables = some rows) : read files (join dir name) table pick = .ok rows := by
  have here := Storage.FileTree.kind?_eq_file settled.table
  have finished : isUnfinished files (place ++ [name]) (.tables tables) = false := by
    have absent := settled.journal
    rw [isUnfinished, journalOf_concat]
    split
    next journal found =>
      refine absurd ?_ (absent journal)
      rw [Storage.FileTree.kind?, found]
      rfl
    next => rfl
  have opened : open? files (join dir name) .readOnly
      = .ok ⟨some (place ++ [name]), true, .tables tables⟩ := by
    have held : contentAt files (join dir name) (place ++ [name]) .readOnly
        = .ok (.tables tables) := by
      simp only [contentAt, here]
    rw [open?_join d t (by decide), if_pos settled.fits, held]
    simp only [bind, Except.bind, finished]
    rfl
  have held : Content.tablesOf (.tables tables) = .ok tables := rfl
  simp only [read, opened, held, bind, Except.bind, picked]
  rfl

theorem isPresent_of_settled {tables : Tables} (settled : Settled files dir place name tables) :
    files.isPresent (join dir name) = true := by
  have fits := settled.fits
  rw [Database.fits, Bool.and_eq_true] at fits
  rw [Storage.FileTree.isPresent, Storage.FileTree.resolve_join d.leads t.file,
    Storage.FileTree.kind?_eq_file settled.table]
  cases parsed : Path.ofText (join dir name) with
  | error fault =>
    rw [parsed] at fits
    cases fits.1
  | ok p => rfl

end Database

end PacketQuery.Catalog
