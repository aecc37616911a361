import PacketQuery.Storage.Path
/-!
Directories and files as a tree whose top is the working directory. A path is walked name by name,
so that a walk fails at the first name that is missing or is no directory. What lies outside the
working directory is reached by the names `..` and `/` and is taken to be empty at first.
-/

namespace PacketQuery.Storage

/-- A directory or a file with content of type `α`. -/
inductive FileTree (α : Type)
  | file (content : α)
  | directory (children : List (String × FileTree α))
  deriving Repr

namespace FileTree

variable {α : Type}

def empty : FileTree α :=
  directory []

def child? (children : List (String × FileTree α)) (name : String) : Option (FileTree α) :=
  (children.find? (·.1 == name)).map (·.2)

/-- The children with `node` under the given name, in the place of the one there was. -/
def withChild (children : List (String × FileTree α)) (name : String) (node : FileTree α) :
    List (String × FileTree α) :=
  match children with
  | [] => [(name, node)]
  | (other, old) :: rest =>
    if other == name then (name, node) :: rest else (other, old) :: withChild rest name node

theorem child?_withChild_self (children : List (String × FileTree α)) (name : String)
    (node : FileTree α) : child? (withChild children name node) name = some node := by
  induction children with
  | nil => simp [withChild, child?]
  | cons entry rest ih =>
    obtain ⟨other, old⟩ := entry
    unfold withChild
    split
    next => simp [child?]
    next h =>
      have hh : (other == name) = false := by simpa using h
      simpa [child?, List.find?_cons, hh] using ih

theorem child?_withChild_of_ne (children : List (String × FileTree α)) {name other : String}
    (node : FileTree α) (hn : other ≠ name) :
    child? (withChild children name node) other = child? children other := by
  induction children with
  | nil => simp [withChild, child?, Ne.symm hn]
  | cons entry rest ih =>
    obtain ⟨key, old⟩ := entry
    unfold withChild
    split
    next h =>
      have hk : key = name := by simpa using h
      subst hk
      simp [child?, Ne.symm hn]
    next =>
      simp only [child?, List.find?_cons] at ih ⊢
      split
      next => rfl
      next => exact ih

/-- The name leads out of the working directory. -/
def isOutside (name : String) : Bool :=
  name == ".." || name == "/"

/-- The node at the end of names that are walked from the top of the tree. -/
def node? : FileTree α → List String → Option (FileTree α)
  | node, [] => some node
  | file _, _ :: _ => none
  | directory children, name :: rest =>
    match child? children name with
    | some node => node.node? rest
    | none => if isOutside name then empty.node? rest else none

/-- The tree with `node` at the end of names that lead through directories. -/
def withNode (node : FileTree α) : FileTree α → List String → FileTree α
  | _, [] => node
  | file content, _ :: _ => file content
  | directory children, name :: rest =>
    directory (withChild children name (withNode node ((child? children name).getD empty) rest))

/-- The names that lead to the directory above. -/
def above (names : List String) : List String :=
  if names.all (· == "..") then names ++ [".."]
  else if names == ["/"] then names
  else names.dropLast

/-- The names of what a directory has, or could have, under one name of a path. -/
def enter (tree : FileTree α) (directory : List String) (name : String) :
    Except IoFault (List String) :=
  match tree.node? directory with
  | some (.directory _) =>
    if name == "." then .ok directory
    else if name == ".." then .ok (above directory)
    else if Path.maxNameLength < name.utf8ByteSize then .error .nameTooLong
    else .ok (directory ++ [name])
  | _ => .error .notDirectory

/-- The names of what there is under one name of a path. -/
def step (tree : FileTree α) (directory : List String) (name : String) :
    Except IoFault (List String) := do
  let names ← tree.enter directory name
  if (tree.node? names).isSome then .ok names else .error .notFound

/-- The names at the end of a walk. -/
def walk (tree : FileTree α) (fromTop : Bool) (names : List String) :
    Except IoFault (List String) :=
  names.foldlM tree.step (if fromTop then ["/"] else [])

/-- The names that a path leads to. A path with a slash at its end leads to a directory. -/
def locate (tree : FileTree α) (path : String) : Except IoFault (List String) := do
  let path ← Path.ofText path
  tree.walk path.fromTop (path.names ++ if path.slashed then ["."] else [])

/-- The node that a path leads to. -/
def resolve (tree : FileTree α) (path : String) : Except IoFault (FileTree α) := do
  match tree.node? (← tree.locate path) with
  | some node => .ok node
  | none => .error .notFound

def isPresent (tree : FileTree α) (path : String) : Bool :=
  (tree.resolve path).isOk

/-- The files and directories in the directory at a path, by name. -/
def list (tree : FileTree α) (path : String) : Except IoFault (List (String × FileTree α)) := do
  match ← tree.resolve path with
  | directory children => .ok children
  | file _ => .error .notDirectory

/-- The names at the end of a path whose last name need not be there; `none` for a path that ends
at the top or in dots, which names nothing new. -/
def target? (tree : FileTree α) (path : Path) : Except IoFault (Option (List String)) := do
  match path.names.getLast? with
  | none => return none
  | some last =>
    let names ← tree.enter (← tree.walk path.fromTop path.names.dropLast) last
    return if last == "." || last == ".." then none else some names

/-- The tree with a file at a path; its directory must be there. -/
def put (tree : FileTree α) (path : String) (content : α) : Except IoFault (FileTree α) := do
  let path ← Path.ofText path
  match ← tree.target? path with
  | none => .error .isDirectory
  | some names =>
    match path.slashed, tree.node? names with
    | true, _ | _, some (directory _) => .error .isDirectory
    | _, _ => .ok (withNode (file content) tree names)

/-- The tree with a new directory at a path; the one above it must be there. -/
def makeDirectory (tree : FileTree α) (path : Path) : Except IoFault (FileTree α) := do
  match ← tree.target? path with
  | none => .error .alreadyExists
  | some names =>
    if (tree.node? names).isSome then .error .alreadyExists
    else .ok (withNode empty tree names)

def hasDirectory (tree : FileTree α) (path : Path) : Bool :=
  match tree.walk path.fromTop path.names with
  | .error _ => false
  | .ok names =>
    match tree.node? names with
    | some (directory _) => true
    | _ => false

/-- The tree after a directory is made at the path, which may be one already. -/
def settle (tree : FileTree α) (path : Path) : Except IoFault (FileTree α) :=
  match tree.makeDirectory path with
  | .ok made => .ok made
  | .error fault => if tree.hasDirectory path then .ok tree else .error fault

/-- Makes a directory at the first of the paths, each of which lies right below the next, and the
missing ones on the way to it. What is made stays where the rest fails. -/
def settleAll (tree : FileTree α) : List Path → Except IoFault Unit × FileTree α
  | [] => (.ok (), tree)
  | path :: above =>
    match tree.settle path with
    | .ok made => (.ok (), made)
    | .error .notFound =>
      match tree.settleAll above with
      | (.error fault, tree) => (.error fault, tree)
      | (.ok (), tree) =>
        match tree.settle path with
        | .ok made => (.ok (), made)
        | .error fault => (.error fault, tree)
    | .error fault => (.error fault, tree)

/-- Makes a directory at a path, and the missing ones on the way to it. -/
def createDirectories (tree : FileTree α) (path : String) : Except IoFault Unit × FileTree α :=
  match Path.ofText path with
  | .error fault => (.error fault, tree)
  | .ok path => tree.settleAll path.ancestors

/-- The names on the way along a path that is read as it is written, so that `..` takes back the
name before it. A name may be missing, but none may lie in a file or be too long. -/
def shorten (tree : FileTree α) (directory : List String) (name : String) :
    Except IoFault (List String) :=
  if name == "." then .ok directory
  else if name == ".." then .ok (above directory)
  else
    match tree.walk false (directory ++ [name]) with
    | .error .notFound | .ok _ => .ok (directory ++ [name])
    | .error fault => .error fault

/-- The names at the end of a path that is read as it is written. -/
def shortened (tree : FileTree α) (path : String) : Except IoFault (List String) := do
  let path ← Path.ofText path
  path.names.foldlM tree.shorten (if path.fromTop then ["/"] else [])

/-- The tree without the file at the end of names, if there is one. -/
def withoutFile (tree : FileTree α) (names : List String) : FileTree α :=
  match tree.node? names, tree.node? names.dropLast with
  | some (file _), some (directory children) =>
    let others := children.filter fun (name, _) => some name != names.getLast?
    withNode (directory others) tree names.dropLast
  | _, _ => tree

def erase (tree : FileTree α) (path : String) : Except IoFault (FileTree α) := do
  let names ← tree.locate path
  match tree.node? names with
  | some (file _) => .ok (tree.withoutFile names)
  | _ => .error .isDirectory

end FileTree

end PacketQuery.Storage
