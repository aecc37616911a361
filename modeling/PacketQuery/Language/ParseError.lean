import PacketQuery.Language.Token
/-!
The faults that a statement may have, and the error that names one at a token.
-/

namespace PacketQuery.Language

/-- What is wrong at a token. -/
inductive Fault
  | noSelect
  | noFrom
  | noTo
  | noAggregateOpen
  | noAggregateClose
  | noField
  | noLabel
  | noSource
  | noInteger
  | negative
  | noTime
  | nowOutOfRange
  | badTime
  | tooDeep
  | badNumber
  | noOperand
  | noClose
  | noPrefixLength
  | badPrefixLength
  | noByte
  | badByte
  | noBraceClose
  | badSubscriptBase
  | noSubscriptColon
  | noSubscriptClose
  | noNowOpen
  | noNowOffset
  | noUnit
  | badUnit
  | noNowClose
  | badInteger
  | badIpv4
  | badMac
  | trailing
  deriving DecidableEq, Repr

def Fault.message : Fault → String
  | noSelect => "expected SELECT"
  | noFrom => "expected FROM"
  | noTo => "expected TO in INTERVAL"
  | noAggregateOpen => "expected '(' after aggregate function"
  | noAggregateClose => "expected ')' after aggregate argument"
  | noField => "expected field name"
  | noLabel => "expected column alias"
  | noSource => "expected source name"
  | noInteger => "expected integer"
  | negative => "expected non-negative integer"
  | noTime => "expected date, time or timestamp"
  | nowOutOfRange => "now() offset out of range"
  | badTime => "invalid date or time"
  | tooDeep => "expression nested too deeply"
  | badNumber => "invalid number"
  | noOperand => "unexpected token in expression"
  | noClose => "expected ')'"
  | noPrefixLength => "expected prefix length"
  | badPrefixLength => "prefix length must be 0 to 32"
  | noByte => "expected byte value"
  | badByte => "byte value out of range"
  | noBraceClose => "expected '\x7d'"
  | badSubscriptBase => "byte subscript not allowed on this name"
  | noSubscriptColon => "expected ':' in byte subscript"
  | noSubscriptClose => "expected ']'"
  | noNowOpen => "expected '(' after now"
  | noNowOffset => "expected offset in now()"
  | noUnit => "expected time unit (s, m, h, d, w, M)"
  | badUnit => "unknown time unit"
  | noNowClose => "expected ')' after now offset"
  | badInteger => "invalid integer"
  | badIpv4 => "invalid IPv4 address"
  | badMac => "invalid MAC address"
  | trailing => "unexpected token after end of statement"

/-- A fault and the token at which it shows. -/
structure ParseError where
  fault : Fault
  token : Token
  deriving DecidableEq, Repr

/-- The fault, its place and the token. -/
def ParseError.message (e : ParseError) : String :=
  e.fault.message ++ " at line " ++ toString e.token.line ++ ", column "
    ++ toString e.token.column ++ " (near '" ++ e.token.shown ++ "')"

end PacketQuery.Language
