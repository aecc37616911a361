import PacketQuery.Catalog.Build
import PacketQuery.Command.Arguments
import PacketQuery.Search.Run
/-!
Running a command line against files. A command gives two texts, its output and its messages, and
a code: zero, one for a failure, two for a command line that asks for nothing that can be run.
-/

namespace PacketQuery.Command

open Catalog (Files)

structure Outcome where
  code : Nat
  output : String
  messages : String
  deriving DecidableEq, Repr

def versionLine : String := "pcapql 0.1.0"

def usageLines : List String :=
  ["Usage: pcapql [-v]... COMMAND", "",
    "  index   [--segments DIR] [--index DIR] [-j N]",
    "  query   [--segments DIR] [--index DIR] [-j N] [--format table|csv|json]",
    "          [--prune-by-interval] [--stats] (PQL | -f FILE)",
    "  fields"]

def UsageFault.message : UsageFault → String
  | helpAsked => "help"
  | versionAsked => "version"
  | nothingGiven | noCommand => "a command is needed"
  | unknownCommand => "no such command"
  | unknownWord => "no such option, or an operand too many"
  | badValue => "an option without a value that it can take"
  | badNumber => "a value that is no number"
  | unneededValue => "a value for an option that takes none"
  | conflict => "options that exclude each other"

/-- What a command line that cannot be run gives. -/
def Outcome.ofUsage : UsageFault → Outcome
  | .helpAsked => ⟨0, Report.lines usageLines, ""⟩
  | .versionAsked => ⟨0, Report.lines [versionLine], ""⟩
  | fault => ⟨2, "", Report.lines (("error: " ++ fault.message) :: "" :: usageLines)⟩

/-- The lines of a text, the first after `start` and the others after `next`. -/
def indented (start next text : String) : String :=
  start ++ Text.joined ("\n" ++ next) ((Text.pieces '\n' text.toList).map String.ofList)

/-- The causes of a failure, numbered where there are several. -/
def causeLines : List String → List String
  | [] => []
  | [cause] => ["", "Caused by:", indented "    " "    " cause]
  | causes =>
    "" :: "Caused by:" :: causes.zipIdx.map fun (cause, i) =>
      let number := String.ofList (Text.padLeft ' ' 5 (Nat.toDigits 10 i))
      indented (number ++ ": ") "       " cause

/-- The report of a failure with what lies behind it. -/
def Outcome.failure (message : String) (causes : List String) : Outcome :=
  ⟨1, "", Report.lines (("Error: " ++ message) :: causeLines causes)⟩

def runIndex (a : Catalog.Archive) (files : Files) : Outcome × Files :=
  match a.buildAll files with
  | (.error failure, files) =>
    (.failure ("Failed to index segments in " ++ a.segments)
      (failure.message :: failure.causes), files)
  | (.ok report, files) =>
    let total := "Indexed " ++ toString report.built.length ++ " segments ("
      ++ toString report.packets ++ " packets) into " ++ a.index
    let failed := report.failed.map fun (id, failure) =>
      "  segment " ++ toString id.toNat ++ " failed: " ++ failure.message
    (⟨0, "", Report.lines (total :: failed)⟩, files)

/-- The text of a file. -/
def readText (files : Files) (path : String) : Except Storage.IoFault String := do
  match ← files.resolve path with
  | .directory _ => .error .isDirectory
  | .file (.bytes data) =>
    match Text.ofUtf8? data with
    | some text => .ok text
    | none => .error .notText
  | .file _ => .error .notText

/-- The query that a command line gives, in one of two ways. -/
def queryText (files : Files) : (text file : Option String) → Except Outcome String
  | some text, _ => .ok text
  | none, some path =>
    (readText files path).mapError fun fault =>
      .failure ("Failed to read query file: " ++ path) [fault.message]
  | none, none => .error (.failure "Query text or --file required. Use --help for usage." [])

/-- Searches an archive. The summary goes to the messages if it is asked for or errors ask
for it. -/
def runQuery (a : Catalog.Archive) (files : Files) (options : Search.Options) (text : String)
    (format : Report.Format) (stats : Bool) (now : Int64) : Outcome :=
  match Search.run a files options text now with
  | .error failure => .failure failure.message failure.causes
  | .ok result =>
    ⟨0, format.render result, if stats || result.hasErrors then Report.summary result else ""⟩

/-- One protocol with its other names, and its fields. -/
def fieldLines (p : Protocol) : List String :=
  let names := if p.aliases.isEmpty then "" else " (" ++ Text.joined ", " p.aliases ++ ")"
  [p.name ++ names ++ ":", "    " ++ Text.joined ", " p.fieldNames]

/-- Every field that a query can name, and the protocols that a catalogue tells apart. -/
def listFields : Outcome :=
  ⟨0, Report.lines (["frame:", "    " ++ Text.joined ", " Packet.frameFieldNames]
    ++ Protocol.all.flatMap fieldLines
    ++ ["", "Indexed protocols:", "    " ++ Text.joined ", " Catalog.protocols]), ""⟩

/-- The number of workers: that given, unless it is zero or missing. -/
def workersOr (standard : Nat) : Option Nat → Nat
  | some 0 | none => standard
  | some n => n

/-- Runs an action at the moment `now`, on a machine that has `standard` workers. -/
def perform (files : Files) (now : Int64) (standard : Nat) : Action → Outcome × Files
  | .index a _ => runIndex a files
  | .query a workers text file format prune stats =>
    match queryText files text file with
    | .error outcome => (outcome, files)
    | .ok query =>
      (runQuery a files ⟨workersOr standard workers, prune⟩ query format stats now, files)
  | .fields => (listFields, files)

/-- Runs a command line without the name of the program. -/
def run (words : List String) (files : Files) (now : Int64) (standard : Nat) :
    Outcome × Files :=
  match Arguments.parse words with
  | .error fault => (.ofUsage fault, files)
  | .ok arguments => perform files now standard arguments.action

end PacketQuery.Command
