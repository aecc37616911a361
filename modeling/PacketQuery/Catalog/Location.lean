import PacketQuery.Catalog.Fault
import PacketQuery.Text.Ascii
import PacketQuery.Text.Utf8
/-!
Locations of databases. A location is a path as it stands, or is written `file:` with the path and,
after a question mark, options such as `mode=ro` with ampersands between them; a hash ends it.
There, `%` with two hexadecimal digits stands for a byte, and a zero byte ends the path, the name
or the value that it stands in.
-/

namespace PacketQuery.Catalog

/-- How a database is opened. -/
inductive Access
  | readOnly
  | readWrite
  /-- A missing file is made. -/
  | create
  /-- No file is used, and what is written is gone when the database is closed. -/
  | memory
  deriving DecidableEq, Repr

namespace Access

/-- The access that an option names. -/
def ofName? : String → Option Access
  | "ro" => some readOnly
  | "rw" => some readWrite
  | "rwc" => some create
  | "memory" => some memory
  | _ => none

/-- The place of an access among those that allow more and more. -/
def rank : Access → Nat
  | readOnly => 0
  | readWrite => 1
  | create => 2
  | memory => 3

/-- An option may ask for `asked` in the place of `given`: for memory, or for no more. -/
def permits (given asked : Access) : Bool :=
  asked == memory || asked.rank ≤ given.rank

end Access

structure Location where
  path : String
  options : List (String × String)
  deriving DecidableEq, Repr

/-- What the options of a location ask for. -/
structure Settings where
  access : Access
  /-- The file system that holds the file. -/
  system : String
  deriving DecidableEq, Repr

namespace Settings

/-- The file systems on disk. They find a file at the same place and lock it in different ways; the
first one is taken where none is named. -/
def diskSystems : List String :=
  ["unix", "unix-none", "unix-dotfile", "unix-excl"]

/-- The file system in memory, whose files are gone when they are closed. -/
def memorySystem : String := "memdb"

/-- The settings with one option applied. -/
def apply (s : Settings) : String × String → Except DatabaseFault Settings
  | ("vfs", name) => .ok { s with system := name }
  | ("cache", kind) =>
    if kind == "shared" || kind == "private" then .ok s else .error (.noMode "cache" kind)
  | ("mode", name) =>
    match Access.ofName? name with
    | none => .error (.noMode "access" name)
    | some asked =>
      if s.access.permits asked then .ok { s with access := asked }
      else .error (.refusedMode name)
  | _ => .ok s

end Settings

namespace Location

/-- The bytes of a text, where `%` with two hexadecimal digits stands for one. -/
def unescaped : List Char → Bytes
  | [] => []
  | '%' :: a :: b :: rest =>
    if Text.isHexDigit a && Text.isHexDigit b then
      UInt8.ofNat (Text.hexValue a * 16 + Text.hexValue b) :: unescaped rest
    else Text.toUtf8 "%" ++ unescaped (a :: b :: rest)
  | c :: rest => Text.toUtf8 c.toString ++ unescaped rest

/-- The text of a part, which a zero byte ends. -/
def part (cs : List Char) : String :=
  Text.ofUtf8Lossy ((unescaped cs).takeWhile (· != 0))

/-- An option with its value, which may be missing. One without a name is left out. -/
def option? (cs : List Char) : Option (String × String) :=
  let name := part (cs.takeWhile (· != '='))
  if name.isEmpty then none else some (name, part ((cs.dropWhile (· != '=')).drop 1))

/-- The path and the options up to a hash. -/
def ofParts (cs : List Char) : Location :=
  let cs := cs.takeWhile (· != '#')
  ⟨part (cs.takeWhile (· != '?')),
    (Text.pieces '&' ((cs.dropWhile (· != '?')).drop 1)).filterMap option?⟩

/-- The location that a text writes. After `file:`, two slashes and this machine may stand before
the path. -/
def ofText (text : String) : Except DatabaseFault Location :=
  match text.toList with
  | 'f' :: 'i' :: 'l' :: 'e' :: ':' :: '/' :: '/' :: rest =>
    let host := String.ofList (rest.takeWhile (· != '/'))
    if host.isEmpty || host == "localhost" then .ok (ofParts (rest.dropWhile (· != '/')))
    else .error (.foreignHost host)
  | 'f' :: 'i' :: 'l' :: 'e' :: ':' :: rest => .ok (ofParts rest)
  | _ => .ok ⟨text, []⟩

/-- What the options ask for, each in its turn, where the database is to be opened with `access`. -/
def settings (location : Location) (access : Access) : Except DatabaseFault Settings := do
  let s ← location.options.foldlM Settings.apply ⟨access, Settings.diskSystems.headD ""⟩
  if (Settings.memorySystem :: Settings.diskSystems).contains s.system then .ok s
  else .error (.noSystem s.system)

/-- The number at the start of a value, decimal or after `0x` hexadecimal. -/
def numberOf : List Char → Nat
  | cs@('0' :: x :: digit :: rest) =>
    if x.toLower == 'x' && Text.isHexDigit digit then
      Text.valueOf 16 ((digit :: rest).takeWhile Text.isHexDigit)
    else Text.valueOf 10 (cs.takeWhile Char.isDigit)
  | cs => Text.valueOf 10 (cs.takeWhile Char.isDigit)

/-- A value says yes: by a word, or by a number below 2147483648 whose lowest byte is not zero. -/
def isYes (value : String) : Bool :=
  let n := numberOf value.toList
  ["on", "yes", "true"].any (Text.same value) || (n < 2147483648 && n % 256 != 0)

/-- The file is said never to change. -/
def isImmutable (location : Location) : Bool :=
  match location.options.find? (·.1 == "immutable") with
  | some (_, value) => isYes value
  | none => false

/-- The location names no file: it has no path or that of memory, or memory is asked for. -/
def isUnnamed (location : Location) (s : Settings) : Bool :=
  location.path.isEmpty || location.path == ":memory:" || s.access == .memory

/-- The database is in no file on disk. -/
def isTransient (location : Location) (s : Settings) : Bool :=
  location.isUnnamed s || s.system == Settings.memorySystem

/-- Nothing may be written. -/
def isReadOnly (location : Location) (s : Settings) : Bool :=
  s.access == .readOnly || (location.isImmutable && !location.isUnnamed s)

end Location

end PacketQuery.Catalog
