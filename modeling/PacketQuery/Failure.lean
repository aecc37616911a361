import PacketQuery.Catalog.Fault
import PacketQuery.Language.ParseError
import PacketQuery.Segment.Basic
import PacketQuery.Storage.FileTree
/-!
Everything that can make a command fail, with its wording and what lies behind it.
-/

namespace PacketQuery

/-- Why a packet could not be decoded. -/
inductive PacketFault
  | tooShort (protocol : String) (need held : Nat)
  | invalidField (protocol field reason : String)
  deriving DecidableEq, Repr

def PacketFault.message : PacketFault → String
  | tooShort protocol need held =>
    protocol ++ ": packet too short (need " ++ toString need ++ " bytes, have " ++ toString held
      ++ ")"
  | invalidField protocol field reason => protocol ++ ": invalid " ++ field ++ ": " ++ reason

/-- A failure, by the part that fails. -/
inductive Failure
  | statement (error : Language.ParseError)
  | store (fault : Catalog.StoreFault)
  | segment (fault : SegmentFault)
  | packet (fault : PacketFault)
  | io (fault : Storage.IoFault)
  deriving DecidableEq, Repr

namespace Failure

def message : Failure → String
  | statement error => "Parse error: " ++ error.message
  | store fault => "Index store error: " ++ fault.message
  | segment fault => "PCAP error: " ++ fault.message
  | packet fault => "Protocol parse error: " ++ fault.message
  | io fault => "I/O error: " ++ fault.message

def causes : Failure → List String
  | statement error => [error.message]
  | store fault => fault.message :: fault.causes
  | segment fault => [fault.message]
  | packet fault => [fault.message]
  | io fault => [fault.message]

end Failure

end PacketQuery
