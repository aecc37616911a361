import PacketQuery.Frame.Header.Network
/-!
Application protocols told by their well-known ports. A packet is of a service if either of its
ports is one of the service's; no payload is looked at.
-/

namespace PacketQuery

/-- The transports over which a service runs. -/
inductive Transport
  | tcp
  | udp
  | either
  deriving DecidableEq, Repr

/-- The transport carries the IP protocol of the given number. -/
def Transport.accepts (transport : Transport) (protocol : Nat) : Bool :=
  match transport with
  | tcp => protocol == IpProtocol.tcp
  | udp => protocol == IpProtocol.udp
  | either => protocol == IpProtocol.tcp || protocol == IpProtocol.udp

/-- An application protocol and where it listens. -/
structure Service where
  name : String
  ports : List Nat
  transport : Transport
  deriving DecidableEq, Repr

namespace Service

def all : List Service :=
  [⟨"dns", [53], .either⟩, ⟨"dhcp", [67, 68], .udp⟩, ⟨"https", [443], .tcp⟩,
    ⟨"ssh", [22], .either⟩, ⟨"rdp", [3389], .either⟩, ⟨"telnet", [23], .either⟩,
    ⟨"smtp", [25, 587], .either⟩, ⟨"imap", [143], .either⟩, ⟨"imaps", [993], .either⟩,
    ⟨"pop3", [110], .either⟩, ⟨"pop3s", [995], .either⟩, ⟨"snmp", [161, 162], .udp⟩,
    ⟨"ftp", [20, 21], .tcp⟩, ⟨"http", [80, 8080], .tcp⟩, ⟨"ntp", [123], .udp⟩,
    ⟨"rtp", [5004], .udp⟩, ⟨"rtcp", [5005], .udp⟩, ⟨"sip", [5060], .either⟩,
    ⟨"sip_tls", [5061], .tcp⟩, ⟨"bgp", [179], .tcp⟩, ⟨"smb", [445], .tcp⟩]

/-- The service listens on one of the two ports. -/
def serves (s : Service) (protocol source destination : Nat) : Bool :=
  s.transport.accepts protocol && (s.ports.contains source || s.ports.contains destination)

/-- The names of the services of a packet, in the order of the table. -/
def namesOf (protocol source destination : Nat) : List String :=
  (all.filter (·.serves protocol source destination)).map (·.name)

/-- The word names a service, in any case. -/
def isName (word : String) : Bool :=
  all.any fun s => Text.same s.name word

end Service

end PacketQuery
