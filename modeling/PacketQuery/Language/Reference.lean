import PacketQuery.Address.Network
import PacketQuery.Order
import PacketQuery.Text.Ascii
/-!
What a statement refers to: the protocols it names and the IPv4 networks it compares a source
or destination address with. Both narrow the packets that can match before any is decoded.
-/

namespace PacketQuery.Language

/-- The address that a network is compared with. -/
inductive Role
  | source
  | destination
  deriving DecidableEq, Repr

/-- The role of a dotted name that is an IPv4 address field, in any case. -/
def Role.ofField? (name : String) : Option Role :=
  match Text.cut '.' name with
  | none => none
  | some (layer, field) =>
    if Text.same layer "ip" || Text.same layer "ipv4" then
      if Text.same field "src" then some .source
      else if Text.same field "dst" then some .destination
      else none
    else none

/-- The networks named for each role, in order of appearance. -/
structure Networks where
  source : List Network := []
  destination : List Network := []
  deriving DecidableEq, Repr

namespace Networks

def isEmpty (n : Networks) : Bool :=
  n.source.isEmpty && n.destination.isEmpty

/-- With a further network for `role`. -/
def add (n : Networks) (role : Role) (network : Network) : Networks :=
  match role with
  | .source => { n with source := n.source ++ [network] }
  | .destination => { n with destination := n.destination ++ [network] }

/-- Each address lies in a network of its role, where the role has any. -/
def admits (n : Networks) (source destination : UInt32) : Bool :=
  (n.source.isEmpty || n.source.any (·.contains source))
    && (n.destination.isEmpty || n.destination.any (·.contains destination))

end Networks

/-- What was referred to so far. -/
structure References where
  /-- Upper-case names of protocols, strictly ascending. -/
  protocols : List String := []
  networks : Networks := {}
  /-- The role that the next network takes: that of the last dotted field. -/
  role : Option Role := none
  deriving DecidableEq, Repr

namespace References

/-- With a protocol. -/
def addProtocol (r : References) (name : String) : References :=
  { r with protocols := Order.insertText (Text.upper name) r.protocols }

/-- With a dotted field: its layer is a protocol, and the role becomes the field's. A name
without a point refers to nothing. -/
def addField (r : References) (name : String) : References :=
  match Text.cut '.' name with
  | none => r
  | some (layer, _) => { r.addProtocol layer with role := Role.ofField? name }

/-- With a network for the current role, if there is one. -/
def addNetwork (r : References) (network : Network) : References :=
  match r.role with
  | none => r
  | some role => { r with networks := r.networks.add role network }

end References

end PacketQuery.Language
