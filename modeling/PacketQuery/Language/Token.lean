import PacketQuery.Text.Ascii
import PacketQuery.Frame.Service
/-!
The tokens of the query language: keywords, words and literals, symbols, and the end of the
text. Keywords and protocol names are recognised in any case.
-/

namespace PacketQuery.Language

/-- The reserved words. -/
inductive Keyword
  | select
  | from_
  | where_
  | orderBy
  | groupBy
  | top
  | limit
  | in_
  | and_
  | or_
  | now
  | interval
  | to_
  | as_
  | true_
  | false_
  | sum
  | avg
  | min
  | max
  | count
  | between
  | distinct
  deriving DecidableEq, Repr

namespace Keyword

/-- Every keyword with its spelling. -/
def spellings : List (String × Keyword) :=
  [("select", select), ("from", from_), ("where", where_), ("order by", orderBy),
    ("group by", groupBy), ("top", top), ("limit", limit), ("in", in_), ("and", and_),
    ("or", or_), ("now", now), ("interval", interval), ("to", to_), ("as", as_), ("true", true_),
    ("false", false_), ("sum", sum), ("avg", avg), ("min", min), ("max", max), ("count", count),
    ("between", between), ("distinct", distinct)]

/-- The keyword that a word spells, in any case. -/
def ofWord? (word : String) : Option Keyword :=
  (spellings.find? fun entry => Text.same entry.1 word).map (·.2)

end Keyword

/-- The operators and marks. -/
inductive Symbol
  | equal
  | notEqual
  | atMost
  | atLeast
  | shiftLeft
  | shiftRight
  | less
  | greater
  | slash
  | star
  | plus
  | minus
  | bang
  | ampersand
  | pipe
  | caret
  | semicolon
  | comma
  | leftBrace
  | rightBrace
  | leftParen
  | rightParen
  | leftBracket
  | rightBracket
  | colon
  | quote
  | dot
  deriving DecidableEq, Repr

namespace Symbol

/-- The symbol that two characters write. -/
def ofPair? : Char → Char → Option Symbol
  | '=', '=' => some equal
  | '!', '=' => some notEqual
  | '<', '=' => some atMost
  | '>', '=' => some atLeast
  | '<', '<' => some shiftLeft
  | '>', '>' => some shiftRight
  | _, _ => none

/-- The symbol that one character writes; a single `=` is an equality too. -/
def ofChar? : Char → Option Symbol
  | '=' => some equal
  | '/' => some slash
  | '*' => some star
  | ';' => some semicolon
  | ',' => some comma
  | '>' => some greater
  | '<' => some less
  | '\x7b' => some leftBrace
  | '\x7d' => some rightBrace
  | '+' => some plus
  | '-' => some minus
  | '(' => some leftParen
  | ')' => some rightParen
  | '[' => some leftBracket
  | ']' => some rightBracket
  | ':' => some colon
  | '\'' => some quote
  | '.' => some dot
  | '!' => some bang
  | '&' => some ampersand
  | '|' => some pipe
  | '^' => some caret
  | _ => none

end Symbol

inductive Kind
  | keyword (word : Keyword)
  /-- A word that is neither a keyword nor a protocol. -/
  | name
  /-- The name of a protocol. -/
  | constant
  | integer
  | float
  | string
  /-- Two words with a point between. -/
  | field
  | ipv4
  | mac
  | date
  | time
  | timestamp
  | symbol (mark : Symbol)
  /-- The end of the text. -/
  | stop
  deriving DecidableEq, Repr

/-- A word that may stand on either side of the point in a field. -/
def Kind.isWord : Kind → Bool
  | name | constant => true
  | _ => false

/-- A token with the place of its first character, lines and columns counted from one. -/
structure Token where
  kind : Kind
  text : String
  line : Nat
  column : Nat
  deriving DecidableEq, Repr

/-- What is shown for a token. -/
def Token.shown (t : Token) : String :=
  if t.kind = .stop then "end of input" else t.text

/-- The protocols below the applications, with their short names. -/
def baseProtocols : List String :=
  ["ethernet", "eth", "arp", "vlan", "ipv4", "ip", "ipv6", "ip6", "icmp", "icmp_unreachable",
    "udp", "tcp"]

/-- The word names a protocol, in any case. -/
def isProtocolName (word : String) : Bool :=
  baseProtocols.any (Text.same · word) || Service.isName word

/-- The kind of a single word. -/
def Kind.ofWord (word : String) : Kind :=
  match Keyword.ofWord? word with
  | some k => .keyword k
  | none => if isProtocolName word then .constant else .name

end PacketQuery.Language
