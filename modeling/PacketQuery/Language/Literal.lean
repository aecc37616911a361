import PacketQuery.Language.Scan
/-!
Literals of several tokens: addresses, dates, times and dotted fields. A window is a number of
neighbouring tokens with a test; from left to right the first window of the table that matches
is fused into one token at the place of its first.
-/

namespace PacketQuery.Language

/-- A shape of neighbouring tokens that makes one literal. -/
structure Window where
  width : Nat
  /-- The kind and text of the literal, if the tokens have the shape. -/
  fuse : List Token → Option (Kind × String)

namespace Literal

def isDecimal (t : Token) : Bool :=
  t.kind = .integer && !t.text.isEmpty && t.text.toList.all Char.isDigit

/-- One or two hexadecimal digits. -/
def isHexGroup (t : Token) : Bool :=
  (t.kind = .integer || t.kind = .name) && 1 ≤ t.text.length && t.text.length ≤ 2
    && t.text.toList.all Text.isHexDigit

/-- Tokens that pass `item` with the symbol `mark` between neighbours. -/
def separated (mark : Symbol) (item : Token → Bool) : List Token → Bool
  | [] => true
  | [t] => item t
  | t :: sep :: rest => item t && sep.kind = .symbol mark && separated mark item rest

def joined (ts : List Token) : String :=
  String.join (ts.map (·.text))

/-- The tokens in even positions. -/
def everyOther : List Token → List Token
  | t :: _ :: rest => t :: everyOther rest
  | ts => ts

/-- The text of a hardware address: pairs of small digits between colons. -/
def macText (ts : List Token) : String :=
  Text.joined ":" ((everyOther ts).map fun t =>
    String.ofList (Text.padLeft '0' 2 (Text.lower t.text).toList))

/-- Six groups of hexadecimal digits between colons. -/
def mac (ts : List Token) : Option (Kind × String) :=
  if separated .colon isHexGroup ts then some (.mac, macText ts) else none

/-- Integers between minus signs. -/
def date (ts : List Token) : Option (Kind × String) :=
  if separated .minus isDecimal ts then some (.date, joined ts) else none

/-- Integers between colons. -/
def time (ts : List Token) : Option (Kind × String) :=
  if separated .colon isDecimal ts then some (.time, joined ts) else none

/-- A date and a time. -/
def timestamp (ts : List Token) : Option (Kind × String) :=
  match date (ts.take 5), time (ts.drop 5) with
  | some (_, d), some (_, t) => some (.timestamp, d ++ " " ++ t)
  | _, _ => none

/-- Integers between points. -/
def ipv4 (ts : List Token) : Option (Kind × String) :=
  if separated .dot isDecimal ts then some (.ipv4, joined ts) else none

/-- Two words with a point between. -/
def field (ts : List Token) : Option (Kind × String) :=
  if separated .dot (·.kind.isWord) ts then some (.field, joined ts) else none

/-- The windows in the order in which they are tried, longer ones first. -/
def windows : List Window :=
  [⟨11, mac⟩, ⟨10, timestamp⟩, ⟨7, ipv4⟩, ⟨5, date⟩, ⟨5, time⟩, ⟨3, field⟩]

/-- The literal that a window makes of the head of the tokens. -/
def Window.apply (w : Window) (ts : List Token) : Option (Kind × String × Nat) :=
  if (ts.take w.width).length = w.width then
    (w.fuse (ts.take w.width)).map fun (kind, text) => (kind, text, w.width)
  else none

/-- The first literal at the head of the tokens, with its width. -/
def first? (ts : List Token) : Option (Kind × String × Nat) :=
  windows.findSome? (Window.apply · ts)

end Literal

/-- The tokens with literals fused. -/
def compose : List Token → List Token
  | [] => []
  | t :: ts =>
    match Literal.first? (t :: ts) with
    | some (kind, text, width) =>
      ⟨kind, text, t.line, t.column⟩ :: compose (ts.drop (width - 1))
    | none => t :: compose ts
termination_by ts => ts.length
decreasing_by
  · simp only [List.length_drop, List.length_cons]
    omega
  · exact Nat.lt_succ_self _

end PacketQuery.Language
