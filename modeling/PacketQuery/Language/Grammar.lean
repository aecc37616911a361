import PacketQuery.Language.Literal
import PacketQuery.Language.ParseError
import PacketQuery.Language.Statement
import PacketQuery.Time.Calendar
/-!
The grammar of statements, read by recursive descent from composed tokens:

    statement  = SELECT [DISTINCT] projection FROM source ("," source)*
                 [WHERE expr] [GROUP BY field ("," field)*] [ORDER BY field ("," field)*]
                 [INTERVAL time TO time] [TOP integer] [LIMIT integer ["," integer]] [";"] end
    projection = "*" | item ("," item)*
    item       = field | function "(" [field | "*"] ")" [AS name]
    expr       = conj (OR conj)*
    conj       = rel (AND rel)*
    rel        = bits [relop bits [TO bits]]
    bits       = sum (("&" | "|" | "^" | "<<" | ">>") sum)*
    sum        = product (("+" | "-") product)*
    product    = unary ("*" unary)*
    unary      = ("+" | "-" | "!") unary | primary

Operators of one level associate to the left. An operand stands under a bounded number of
parentheses and prefix operators, and the reading recurses on what is left of that bound.
-/

namespace PacketQuery.Language

/-- What is left to read: the tokens before the end, and the end; and what was referred to. -/
structure Input where
  rest : List Token
  stop : Token
  references : References
  deriving DecidableEq, Repr

/-- A reader of tokens. It keeps its state where it fails. -/
abbrev Parser := EStateM ParseError Input

namespace Parser

/-- How deep parentheses and prefix operators may nest. -/
def maxNesting : Nat := 64

/-- The layers that have bytes to be subscripted. -/
def subscriptBases : List String :=
  ["frame", "eth", "vlan", "arp", "ip", "ip6", "icmp", "tcp", "udp", "dns", "payload"]

/-- The next token; at the end of the tokens that end. -/
def peek : Parser Token := fun input =>
  .ok (input.rest.head?.getD input.stop) input

/-- Takes the next token; the end is never passed. -/
def advance : Parser Token := fun input =>
  match input.rest with
  | [] => .ok input.stop input
  | t :: ts => .ok t { input with rest := ts }

/-- Fails with a fault at a token. -/
def failAt {α : Type} (token : Token) (fault : Fault) : Parser α :=
  throw ⟨fault, token⟩

/-- Fails with a fault at the next token. -/
def failHere {α : Type} (fault : Fault) : Parser α := do
  failAt (← peek) fault

/-- The value, or a failure at a token. -/
def ofOption {α : Type} (token : Token) (fault : Fault) : Option α → Parser α
  | some a => pure a
  | none => failAt token fault

/-- Takes the next token if it has the given kind. -/
def accept (kind : Kind) : Parser Bool := do
  if (← peek).kind = kind then
    let _ ← advance
    return true
  else return false

/-- Takes the next token, which must have the given kind. -/
def expect (kind : Kind) (fault : Fault) : Parser Token := do
  if (← peek).kind = kind then advance else failHere fault

/-- Takes the next token, whose kind must pass the test. -/
def expectWhere (test : Kind → Bool) (fault : Fault) : Parser Token := do
  if test (← peek).kind then advance else failHere fault

/-- Adds to what was referred to. -/
def note (f : References → References) : Parser Unit :=
  modify fun input => { input with references := f input.references }

/-- At most `room` further items, each after a comma. -/
def moreItems {α : Type} (item : Parser α) : (room : Nat) → Parser (List α)
  | 0 => pure []
  | room + 1 => do
    if ← accept (.symbol .comma) then
      let x ← item
      return x :: (← moreItems item room)
    else return []

/-- The further items of a list; every one takes a token, so there are no more of them than
tokens. -/
def restOfList {α : Type} (item : Parser α) : Parser (List α) := do
  moreItems item (← get).rest.length

/-- One item or more with commas between. -/
def listOf {α : Type} (item : Parser α) : Parser (List α) := do
  let x ← item
  return x :: (← restOfList item)

/-! ### Numbers, addresses and times -/

/-- The number that a digit token writes, if it fits 64 bits with a sign. -/
def integerOf? (t : Token) : Option Int64 :=
  let value := match t.text.toList with
    | '0' :: 'x' :: hex => Text.hex? hex
    | '0' :: 'X' :: hex => Text.hex? hex
    | cs => Text.decimal? cs
  value.bind fun n => Number.int64? n

/-- The number that a digit token writes. -/
def integerOf (t : Token) : Parser Int64 :=
  ofOption t .badInteger (integerOf? t)

/-- The number that two runs of digits with a point between write, rounded to a double. -/
def floatOf? (t : Token) : Option Float :=
  match Text.pieces '.' t.text.toList with
  | [whole, fraction] =>
    (Text.decimal? (whole ++ fraction)).map fun n => Float.ofScientific n true fraction.length
  | _ => none

/-- The number of the first four decimal octets between points. -/
def ipv4Of? (t : Token) : Option UInt32 :=
  match (Text.pieces '.' t.text.toList).take 4 with
  | [a, b, c, d] => do
    let octets ← [a, b, c, d].mapM (Text.unsigned? 255)
    some (UInt32.ofNat (octets.foldl (fun n octet => n * 256 + octet) 0))
  | _ => none

/-- The number of pairs of hexadecimal digits between colons. -/
def macOf? (t : Token) : Option UInt64 := do
  let octets ← (Text.pieces ':' t.text.toList).mapM Text.hex?
  some (UInt64.ofNat (octets.foldl (fun n octet => n * 256 + octet) 0))

/-- The moment that a date, a time of the present day or both write. -/
def momentOf? (now : Int64) (t : Token) : Option Int64 :=
  let seconds : Option Int := match t.kind with
    | .date => (Time.readDate? t.text.toList).map Time.ofDate
    | .time => (Time.readClock? t.text.toList).map fun s => Time.midnight now.toInt + s
    | .timestamp => do
      let (date, clock) ← Text.cut ' ' t.text
      let day ← Time.readDate? date.toList
      let s ← Time.readClock? clock.toList
      some (Time.ofDate day + s)
    | _ => none
  seconds.map Int64.ofInt

/-- The moment that a date or time token writes. -/
def momentOf (now : Int64) (t : Token) : Parser Int64 :=
  ofOption t .badTime (momentOf? now t)

/-- An integer that is not negative. -/
def unsigned : Parser UInt64 := do
  let t ← expect .integer .noInteger
  let value ← integerOf t
  if value < 0 then failAt t .negative else return value.toUInt64

/-! ### Clauses -/

/-- A field of the output. A dotted one is referred to. -/
def fieldName : Parser String := do
  match (← peek).kind with
  | .field =>
    let t ← advance
    note (·.addField t.text)
    return t.text
  | .name => return (← advance).text
  | _ => failHere .noField

def aggregateOf? : Kind → Option Aggregate
  | .keyword .sum => some .sum
  | .keyword .avg => some .avg
  | .keyword .min => some .min
  | .keyword .max => some .max
  | .keyword .count => some .count
  | _ => none

/-- The argument of a function, which may be left out or be `*`. -/
def argument : Parser (Option String) := do
  match (← peek).kind with
  | .symbol .rightParen => return none
  | .symbol .star =>
    let _ ← advance
    return none
  | _ => return some (← fieldName)

/-- The kinds of tokens that can name a column. -/
def isLabel : Kind → Bool
  | .name | .constant | .field | .string => true
  | _ => false

/-- The kinds of tokens that can name a source. -/
def isSource : Kind → Bool
  | .integer => true
  | kind => isLabel kind

/-- One column: a field, or a function with its argument and perhaps a name. -/
def item : Parser Item := do
  match aggregateOf? (← peek).kind with
  | none => return .field (← fieldName)
  | some function =>
    let _ ← advance
    let _ ← expect (.symbol .leftParen) .noAggregateOpen
    let field ← argument
    let _ ← expect (.symbol .rightParen) .noAggregateClose
    if ← accept (.keyword .as_) then
      return .aggregate function field (← expectWhere isLabel .noLabel).text
    else return .aggregate function field (function.name ++ "(" ++ field.getD "" ++ ")")

def projection : Parser Projection := do
  if ← accept (.symbol .star) then return .wildcard else return .items (← listOf item)

def source : Parser String := do
  return (← expectWhere isSource .noSource).text

/-- A present moment: `now()` or `now` with a distance back, or ahead after a plus sign. -/
def nowCall (now : Int64) : Parser (Int64 × Time.Unit) := do
  let _ ← advance
  let _ ← expect (.symbol .leftParen) .noNowOpen
  if ← accept (.symbol .rightParen) then return (0, .seconds)
  let ahead ← accept (.symbol .plus)
  if !ahead then
    -- Without a sign the amount goes back too.
    let _ ← accept (.symbol .minus)
  let amount ← expect .integer .noNowOffset
  let distance ← integerOf amount
  let offset := if ahead then -distance else distance
  let word ← expect .name .noUnit
  let unit ← ofOption word .badUnit (Time.Unit.ofSuffix? word.text)
  if (unit.shiftBack now offset).isNone then failAt amount .nowOutOfRange
  let _ ← expect (.symbol .rightParen) .noNowClose
  return (offset, unit)

/-- An end of the interval. -/
def timeBound (now : Int64) : Parser Int64 := do
  let t ← peek
  match t.kind with
  | .date | .time | .timestamp =>
    let _ ← advance
    momentOf now t
  | .integer =>
    let _ ← advance
    integerOf t
  | .keyword .now =>
    let (offset, unit) ← nowCall now
    ofOption t .nowOutOfRange (unit.shiftBack now offset)
  | _ => failHere .noTime

/-! ### Expressions -/

/-- At most `room` further operands on one level of operators, taken to the left. -/
def moreOperands (operator? : Kind → Option BinaryOp) (operand : Parser Expr) :
    (room : Nat) → Expr → Parser Expr
  | 0, left => pure left
  | room + 1, left => do
    match operator? (← peek).kind with
    | none => return left
    | some op =>
      let _ ← advance
      let right ← operand
      moreOperands operator? operand room (.binary op left right)

/-- Operands with operators of one level between; every operator takes a token. -/
def chain (operator? : Kind → Option BinaryOp) (operand : Parser Expr) : Parser Expr := do
  let left ← operand
  -- Every operator takes a token, so the room is never short.
  moreOperands operator? operand (← get).rest.length left

def disjunction? : Kind → Option BinaryOp
  | .keyword .or_ => some .or
  | _ => none

def conjunction? : Kind → Option BinaryOp
  | .keyword .and_ => some .and
  | _ => none

def relation? : Kind → Option BinaryOp
  | .symbol .less => some .less
  | .symbol .atMost => some .atMost
  | .symbol .greater => some .greater
  | .symbol .atLeast => some .atLeast
  | .symbol .equal => some .equal
  | .symbol .notEqual => some .notEqual
  | .keyword .in_ => some .member
  | .keyword .between => some .between
  | .keyword .to_ => some .range
  | _ => none

def bitOperator? : Kind → Option BinaryOp
  | .symbol .ampersand => some .bitAnd
  | .symbol .pipe => some .bitOr
  | .symbol .caret => some .bitXor
  | .symbol .shiftLeft => some .shiftLeft
  | .symbol .shiftRight => some .shiftRight
  | _ => none

def sumOperator? : Kind → Option BinaryOp
  | .symbol .plus => some .add
  | .symbol .minus => some .sub
  | _ => none

def productOperator? : Kind → Option BinaryOp
  | .symbol .star => some .mul
  | _ => none

def unaryOperator? : Kind → Option UnaryOp
  | .symbol .minus => some .negate
  | .symbol .plus => some .plus
  | .symbol .bang => some .not
  | _ => none

/-- One comparison or none. After any but `to` the right side may be a range. -/
def relation (operand : Parser Expr) : Parser Expr := do
  let left ← operand
  match relation? (← peek).kind with
  | none => return left
  | some op =>
    let _ ← advance
    let right ← operand
    if op ≠ .range then
      if ← accept (.keyword .to_) then
        let upper ← operand
        return .binary op left (.binary .range right upper)
    return .binary op left right

/-- An expression whose operands below all operators are read by `operand`. -/
def expression (operand : Parser Expr) : Parser Expr :=
  chain disjunction? (chain conjunction? (relation
    (chain bitOperator? (chain sumOperator? (chain productOperator? operand)))))

/-- An IPv4 address, perhaps with the length of its fixed part. -/
def ipv4 : Parser Expr := do
  let t ← advance
  let address ← ofOption t .badIpv4 (ipv4Of? t)
  let length ← if ← accept (.symbol .slash) then
      let lengthToken ← expect .integer .noPrefixLength
      let length ← integerOf lengthToken
      if 0 ≤ length ∧ length ≤ 32 then pure length.toInt.toNat
      else failAt lengthToken .badPrefixLength
    else pure 32
  let network := Network.of address length
  note (·.addNetwork network)
  return .ipv4 network

def byteValue : Parser UInt8 := do
  let t ← expect .integer .noByte
  let value ← integerOf t
  if 0 ≤ value ∧ value ≤ 255 then return UInt8.ofNat value.toInt.toNat else failAt t .badByte

def byteString : Parser Expr := do
  let _ ← advance
  let values ← listOf byteValue
  let _ ← expect (.symbol .rightBrace) .noBraceClose
  return .bytes values

/-- Bytes of a layer, by position and number. -/
def subscript : Parser Expr := do
  let t ← advance
  let base := Text.lower t.text
  if !subscriptBases.contains base then failAt t .badSubscriptBase
  if base ≠ "frame" ∧ base ≠ "payload" then note (·.addProtocol base)
  let _ ← advance
  let offset ← unsigned
  let _ ← expect (.symbol .colon) .noSubscriptColon
  let length ← unsigned
  let _ ← expect (.symbol .rightBracket) .noSubscriptClose
  return .subscript base offset.toNat length.toNat

/-- The token after the next opens a subscript. -/
def subscriptFollows : Parser Bool := fun input =>
  .ok ((input.rest[1]?.map (·.kind)) == some (.symbol .leftBracket)) input

/-- An expression in parentheses, or several with commas between. -/
def parenthesised (nested : Parser Expr) : Parser Expr := do
  let _ ← advance
  let first ← nested
  if ← accept (.symbol .comma) then
    let members ← listOf nested
    let _ ← expect (.symbol .rightParen) .noClose
    return .sequence (first :: members)
  else
    let _ ← expect (.symbol .rightParen) .noClose
    return .group first

/-- A literal, field, protocol or parenthesis; `nested` reads what stands in parentheses. -/
def primary (now : Int64) (nested : Parser Expr) : Parser Expr := do
  let t ← peek
  match t.kind with
  | .integer =>
    let _ ← advance
    return .integer (← integerOf t)
  | .float =>
    let _ ← advance
    return .float (← ofOption t .badNumber (floatOf? t))
  | .string => return .string (← advance).text
  | .keyword .true_ =>
    let _ ← advance
    return .boolean true
  | .keyword .false_ =>
    let _ ← advance
    return .boolean false
  | .date | .time | .timestamp =>
    let _ ← advance
    return .moment (← momentOf now t)
  | .ipv4 => ipv4
  | .mac =>
    let _ ← advance
    return .mac (← ofOption t .badMac (macOf? t))
  | .symbol .leftBrace => byteString
  | .field =>
    let _ ← advance
    note (·.addField t.text)
    return .field t.text
  | .name => if ← subscriptFollows then subscript else return .field (← advance).text
  | .constant =>
    if ← subscriptFollows then subscript
    else
      let _ ← advance
      note (·.addProtocol t.text)
      return .protocol (Text.upper t.text)
  | .symbol .leftParen => parenthesised nested
  | .keyword .now =>
    let (offset, unit) ← nowCall now
    return .now offset unit
  | .symbol .star =>
    let _ ← advance
    return .wildcard
  | _ => failHere .noOperand

/-- An operand with the operators before it, where `room` more parentheses and prefix operators
may be opened. -/
def unary (now : Int64) : (room : Nat) → Parser Expr
  | 0 => failHere .tooDeep
  | room + 1 => do
    match unaryOperator? (← peek).kind with
    | some op =>
      let _ ← advance
      return .unary op (← unary now room)
    | none => primary now (expression (unary now room))

def expr (now : Int64) : Parser Expr :=
  expression (unary now maxNesting)

/-- What follows a keyword, if that comes next. -/
def clause {α : Type} (word : Keyword) (content : Parser α) : Parser (Option α) := do
  if ← accept (.keyword word) then return some (← content) else return none

def intervalBounds (now : Int64) : Parser (Int64 × Int64) := do
  let first ← timeBound now
  let _ ← expect (.keyword .to_) .noTo
  let last ← timeBound now
  return (first, last)

/-- The rows to leave out, none unless given, and the rows to show. -/
def limitBounds : Parser (UInt64 × UInt64) := do
  let first ← unsigned
  if ← accept (.symbol .comma) then return (first, ← unsigned) else return (0, first)

/-- A statement up to the end of the tokens. -/
def statement (now : Int64) : Parser Statement := do
  let _ ← expect (.keyword .select) .noSelect
  let distinct ← accept (.keyword .distinct)
  let projection ← projection
  let _ ← expect (.keyword .from_) .noFrom
  let sources ← listOf source
  let filter ← clause .where_ (expr now)
  let groupBy ← clause .groupBy (listOf fieldName)
  let orderBy ← clause .orderBy (listOf fieldName)
  let interval ← clause .interval (intervalBounds now)
  let top ← clause .top unsigned
  let limit ← clause .limit limitBounds
  let _ ← accept (.symbol .semicolon)
  let _ ← expect .stop .trailing
  let references := (← get).references
  return {
    distinct, projection, sources, filter, top, limit, interval
    groupBy := groupBy.getD []
    orderBy := orderBy.getD []
    protocols := references.protocols
    networks := references.networks }

end Parser

/-- The tokens of a text as input, nothing referred to yet. -/
def Input.ofTokens (ts : List Token) : Input :=
  ⟨ts.dropLast, ts.getLast?.getD ⟨.stop, "", 1, 1⟩, {}⟩

/-- The statement that a text writes, or what is wrong with it; and what the text referred to
until the reading ended. Times of day and distances count from the moment `now`. -/
def parse (now : Int64) (text : String) : Except ParseError Statement × References :=
  match Parser.statement now (Input.ofTokens (compose (tokens text))) with
  | .ok s input => (.ok s, input.references)
  | .error e input => (.error e, input.references)

/-- With nothing referred to. -/
def References.reset (r : References) : References :=
  { r with protocols := [], networks := {}, role := none }

/-- Reading a text into references that are kept from text to text: those that were `held` are
dropped before it. -/
def parseWith (held : References) (now : Int64) (text : String) :
    Except ParseError Statement × References :=
  match Parser.statement now
    { Input.ofTokens (compose (tokens text)) with references := held.reset } with
  | .ok s input => (.ok s, input.references)
  | .error e input => (.error e, input.references)

end PacketQuery.Language
