import PacketQuery.Catalog.Archive
import PacketQuery.Report.Format
/-!
The words of a command line: options, a command, and its operand. Options are long, `--name value`
or `--name=value`, or short, where flags may be written together and a value may follow its letter
at once. After `--` every word is an operand. The value of an option is looked at only when the
next option or operand comes, so that an unknown option is reported first.
-/

namespace PacketQuery.Command

/-- Why a command line asks for nothing that can be run. -/
inductive UsageFault
  | helpAsked
  | versionAsked
  /-- Nothing is given at all. -/
  | nothingGiven
  | noCommand
  | unknownCommand
  /-- An option that there is not, or an operand too many. -/
  | unknownWord
  /-- An option without its value, or with one that it cannot take. -/
  | badValue
  /-- A value that is no number. -/
  | badNumber
  /-- A value for a flag. -/
  | unneededValue
  /-- An option given twice, or two that exclude each other. -/
  | conflict
  deriving DecidableEq, Repr

/-- The options without a value. -/
inductive Flag
  | help
  | version
  | verbose
  | prune
  | stats
  deriving DecidableEq, Repr

/-- The options with a value. -/
inductive Setting
  | segments
  | index
  | workers
  | file
  | format
  deriving DecidableEq, Repr

inductive Switch
  | flag (flag : Flag)
  | setting (setting : Setting)
  deriving DecidableEq, Repr

inductive Verb
  | index
  | query
  | fields
  deriving DecidableEq, Repr

namespace Verb

def word : Verb → String
  | index => "index"
  | query => "query"
  | fields => "fields"

def ofWord? (s : String) : Option Verb :=
  [index, query, fields].find? (·.word == s)

end Verb

namespace Switch

/-- The options by their names. -/
def longNames : List (String × Switch) :=
  [("help", .flag .help), ("version", .flag .version), ("verbose", .flag .verbose),
    ("prune-by-interval", .flag .prune), ("stats", .flag .stats),
    ("segments", .setting .segments), ("index", .setting .index),
    ("workers", .setting .workers), ("file", .setting .file), ("format", .setting .format)]

/-- The options by their letters. -/
def letters : List (Char × Switch) :=
  [('h', .flag .help), ('V', .flag .version), ('v', .flag .verbose), ('j', .setting .workers),
    ('f', .setting .file)]

/-- The option may be given with a command, or before any. -/
def isAllowed (verb : Option Verb) : Switch → Bool
  | flag .help | flag .verbose => true
  | flag .version => verb.isNone
  | setting .segments | setting .index | setting .workers =>
    verb == some .index || verb == some .query
  | flag .prune | flag .stats | setting .file | setting .format => verb == some .query

def ofName? (verb : Option Verb) (name : String) : Option Switch :=
  ((longNames.find? (·.1 == name)).map (·.2)).filter (isAllowed verb)

def ofLetter? (verb : Option Verb) (letter : Char) : Option Switch :=
  ((letters.find? (·.1 == letter)).map (·.2)).filter (isAllowed verb)

end Switch

/-- The options and the operand given. -/
structure Given where
  /-- How often the flag is given, at most 255. -/
  verbose : Option Nat := none
  prune : Bool := false
  stats : Bool := false
  segments : Option String := none
  index : Option String := none
  workers : Option Nat := none
  file : Option String := none
  format : Option Report.Format := none
  operand : Option String := none
  deriving DecidableEq, Repr

namespace Given

/-- The new value of an option, which must be given only once. -/
def once {α : Type} (old : Option α) (value : Except UsageFault α) :
    Except UsageFault (Option α) :=
  if old.isSome then .error .conflict else value.map some

/-- A path; it must not be empty. -/
def path (text : String) : Except UsageFault String :=
  if text.isEmpty then .error .badValue else .ok text

/-- A number of 64 bits. -/
def number (text : String) : Except UsageFault Nat :=
  match Text.unsigned? (UInt64.size - 1) text.toList with
  | some n => .ok n
  | none => .error .badNumber

/-- The name of a form for rows. -/
def form (text : String) : Except UsageFault Report.Format :=
  match Report.Format.ofName? text with
  | some format => .ok format
  | none => .error .badValue

/-- With the value of an option. -/
def set (g : Given) (setting : Setting) (text : String) : Except UsageFault Given :=
  match setting with
  | .segments => (once g.segments (path text)).map fun v => { g with segments := v }
  | .index => (once g.index (path text)).map fun v => { g with index := v }
  | .workers => (once g.workers (number text)).map fun v => { g with workers := v }
  | .file => (once g.file (path text)).map fun v => { g with file := v }
  | .format => (once g.format (form text)).map fun v => { g with format := v }

/-- With a flag. Only the one for verbosity may be repeated. -/
def raise (g : Given) (flag : Flag) : Except UsageFault Given :=
  match flag with
  | .help => .error .helpAsked
  | .version => .error .versionAsked
  | .verbose => .ok { g with verbose := some (min (g.verbose.getD 0 + 1) 255) }
  | .prune => if g.prune then .error .conflict else .ok { g with prune := true }
  | .stats => if g.stats then .error .conflict else .ok { g with stats := true }

end Given

/-- How far a command line has been read. -/
structure Progress where
  given : Given
  /-- An option that waits for its value, or whose value has not been looked at. -/
  pending : Option (Setting × Option String)
  /-- The words that follow are operands. -/
  operandsOnly : Bool
  deriving DecidableEq, Repr

namespace Progress

def start : Progress :=
  ⟨{}, none, false⟩

/-- What is given, the value of the pending option included. -/
def settle (p : Progress) : Except UsageFault Given :=
  match p.pending with
  | none => .ok p.given
  | some (_, none) => .error .badValue
  | some (setting, some text) => p.given.set setting text

def flag (p : Progress) (flag : Flag) : Except UsageFault Progress := do
  let given ← (← p.settle).raise flag
  return { p with given, pending := none }

/-- With an option and the value written together with it; without one, the next word is its
value. -/
def setting (p : Progress) (setting : Setting) (attached : Option String) :
    Except UsageFault Progress := do
  let given ← p.settle
  match attached with
  | some text => return { p with given := ← given.set setting text, pending := none }
  | none => return { p with given, pending := some (setting, none) }

/-- With a long option, its name and the value after an equals sign. -/
def long (p : Progress) (verb : Option Verb) (name : String) (attached : Option String) :
    Except UsageFault Progress :=
  match Switch.ofName? verb name, attached with
  | none, _ => .error .unknownWord
  | some (.flag _), some _ => .error .unneededValue
  | some (.flag f), none => p.flag f
  | some (.setting s), attached => p.setting s attached

/-- With options given by letters. A letter that takes a value takes the rest of the word, an
equals sign in front of it left out. -/
def short (p : Progress) (verb : Option Verb) : List Char → Except UsageFault Progress
  | [] => .ok p
  | letter :: rest =>
    match Switch.ofLetter? verb letter with
    | none => .error .unknownWord
    | some (.flag f) => do (← p.flag f).short verb rest
    | some (.setting s) =>
      match rest with
      | [] => p.setting s none
      | '=' :: value => p.setting s (some (String.ofList value))
      | value => p.setting s (some (String.ofList value))

/-- With an operand. Only a query has one. -/
def operand (p : Progress) (verb : Option Verb) (text : String) : Except UsageFault Progress :=
  if verb == some .query && p.given.operand.isNone then do
    return { p with given := { ← p.settle with operand := some text }, pending := none }
  else .error .unknownWord

def word (p : Progress) (verb : Option Verb) (text : String) : Except UsageFault Progress :=
  if p.operandsOnly then p.operand verb text
  else
    match text.toList with
    | ['-', '-'] => .ok { p with operandsOnly := true }
    | '-' :: '-' :: cs =>
      match Text.cut '=' (String.ofList cs) with
      | some (name, value) => p.long verb name (some value)
      | none => p.long verb (String.ofList cs) none
    | '-' :: c :: cs => p.short verb (c :: cs)
    | _ =>
      match p.pending with
      | some (setting, none) => .ok { p with pending := some (setting, some text) }
      | _ => p.operand verb text

end Progress

/-- What a command line asks for. -/
inductive Action
  | index (archive : Catalog.Archive) (workers : Option Nat)
  | query (archive : Catalog.Archive) (workers : Option Nat) (text file : Option String)
    (format : Report.Format) (prune stats : Bool)
  | fields
  deriving DecidableEq, Repr

structure Arguments where
  verbose : Nat
  action : Action
  deriving DecidableEq, Repr

namespace Arguments

/-- The archive that the options name. -/
def archiveOf (g : Given) : Catalog.Archive :=
  ⟨g.segments.getD "segments", g.index.getD "index"⟩

/-- What a command asks for with the options given. A query is given in one way only. -/
def actionOf (verb : Verb) (g : Given) : Except UsageFault Action :=
  match verb with
  | .index => .ok (.index (archiveOf g) g.workers)
  | .query =>
    if g.operand.isSome && g.file.isSome then .error .conflict
    else .ok (.query (archiveOf g) g.workers g.operand g.file (g.format.getD .table) g.prune
      g.stats)
  | .fields => .ok .fields

/-- Reads the words of a command after what was given before it. The later count of verbosity
holds. -/
def ofCommand (before : Given) (verb : Verb) (words : List String) :
    Except UsageFault Arguments := do
  let g ← (← words.foldlM (fun p text => p.word (some verb) text) Progress.start).settle
  return ⟨(g.verbose.or before.verbose).getD 0, ← actionOf verb g⟩

/-- The fault of asking for help, perhaps on a command. -/
def helpOn : List String → UsageFault
  | [] => .helpAsked
  | [word] =>
    if word == "help" || (Verb.ofWord? word).isSome then .helpAsked else .unknownCommand
  | _ :: _ => .unknownCommand

/-- Reads the words from the first that is neither read nor a command yet. -/
def ofWords (p : Progress) : List String → Except UsageFault Arguments
  | [] => .error (if p.given.verbose.isSome then .noCommand else .nothingGiven)
  | text :: rest =>
    match Verb.ofWord? text with
    | some verb => if p.operandsOnly then .error .unknownWord else ofCommand p.given verb rest
    | none =>
      if text == "help" then .error (if p.operandsOnly then .unknownWord else helpOn rest)
      else if p.operandsOnly || text == "-" || text.toList.head? != some '-' then
        .error .unknownCommand
      else
        match p.word none text with
        | .ok p => ofWords p rest
        | .error fault => .error fault

/-- Reads a command line without the name of the program. -/
def parse (words : List String) : Except UsageFault Arguments :=
  ofWords .start words

end Arguments

end PacketQuery.Command
