import PacketQuery.Text.Ascii
/-!
Paths as they are written: names between slashes, from the top or from the working directory.
-/

namespace PacketQuery.Storage

/-- Why a path could not be read or written. -/
inductive IoFault
  | notFound
  | alreadyExists
  | notDirectory
  | isDirectory
  /-- The bytes of a directory were asked for. -/
  | noDevice
  /-- The path, or a name in it, is too long. -/
  | nameTooLong
  /-- The bytes are no UTF-8. -/
  | notText
  deriving DecidableEq, Repr

def IoFault.message : IoFault → String
  | notFound => "No such file or directory (os error 2)"
  | alreadyExists => "File exists (os error 17)"
  | notDirectory => "Not a directory (os error 20)"
  | isDirectory => "Is a directory (os error 21)"
  | noDevice => "No such device (os error 19)"
  | nameTooLong => "File name too long (os error 36)"
  | notText => "stream did not contain valid UTF-8"

/-- The path of `name` in a directory. -/
def join (directory name : String) : String :=
  if directory.isEmpty || directory.toList.getLast? == some '/' then directory ++ name
  else directory ++ "/" ++ name

/-- The path of the directory that a path lies in. -/
def directoryOf (path : String) : String :=
  match (Text.pieces '/' path.toList).dropLast with
  | [] => "."
  | [[]] => "/"
  | above => Text.joined "/" (above.map String.ofList)

structure Path where
  /-- It leads from the top, not from the working directory. -/
  fromTop : Bool
  /-- The names along it, `.` and `..` among them. -/
  names : List String
  /-- It ends with a slash, as only the path of a directory may. -/
  slashed : Bool
  deriving DecidableEq, Repr

namespace Path

/-- The most bytes of a path. -/
def maxLength : Nat := 4095

/-- The most bytes of a name. -/
def maxNameLength : Nat := 255

def ofText (text : String) : Except IoFault Path :=
  let cs := text.toList
  if cs.isEmpty then .error .notFound
  else if maxLength < text.utf8ByteSize then .error .nameTooLong
  else
    .ok ⟨cs.head? == some '/',
      ((Text.pieces '/' cs).filter (!·.isEmpty)).map String.ofList, cs.getLast? == some '/'⟩

/-- The names along the path without those that stay, but for one in front. -/
def moves (path : Path) : List String :=
  match path.names with
  | [] => []
  | first :: rest =>
    (if first == "." && path.fromTop then [] else [first]) ++ rest.filter (· != ".")

/-- The path and those of the directories above it, the farthest last. -/
def ancestors (path : Path) : List Path :=
  path :: (List.range (path.moves.length - 1)).reverse.map fun last =>
    ⟨path.fromTop, path.moves.take (last + 1), false⟩

end Path

end PacketQuery.Storage
