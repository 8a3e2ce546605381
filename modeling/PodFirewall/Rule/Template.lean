import PodFirewall.Rule.Basic

/-!
Templates: rules with protocol, ports and action, but without addresses.
Addresses are filled in when the peers of a policy are known.
-/

namespace PodFirewall

inductive Protocol where
  | tcp
  | udp
  | icmp
  deriving DecidableEq

namespace Protocol

def name : Protocol → String
  | tcp => "TCP"
  | udp => "UDP"
  | icmp => "ICMP"

/-- The protocol with a name, in upper or lower case. -/
def ofName? (s : String) : Option Protocol :=
  match s.map Char.toUpper with
  | "TCP" => some tcp
  | "UDP" => some udp
  | "ICMP" => some icmp
  | _ => none

end Protocol

/-- A protocol with ports, as seen from the protected pods: for incoming
traffic the destination port is theirs. What is not set matches everything. -/
structure PortMatch where
  protocol : Option Protocol
  sport : Option UInt16
  dport : Option UInt16
  deriving DecidableEq

namespace Rule

def withPorts (r : Rule) (p : PortMatch) : Rule :=
  { r with protocol := p.protocol.map Protocol.name, sport := p.sport, dport := p.dport }

/-- Every rule once for each match; without any match the rules themselves. -/
def expandPorts (rules : List Rule) (ports : List PortMatch) : List Rule :=
  if ports.isEmpty then rules else rules.flatMap fun r => ports.map r.withPorts

/-- One template for each match, or a single one for all packets. A template
matches the first packet of a connection. -/
def templates (action : RuleAction) (ports : List PortMatch) : List Rule :=
  expandPorts [{ blank with action := action, conntrack := some .new }] ports

def fill (src dst : Option String) (r : Rule) : Rule :=
  { r with src := src.or r.src, dst := dst.or r.dst }

/-- The rule for a peer with the given address, which is the source of
incoming traffic and the destination of outgoing traffic. -/
def fillPeer (direction : Direction) (address : String) (r : Rule) : Rule :=
  match direction with
  | .incoming => r.fill (some address) none
  | .outgoing => r.fill none (some address)

end Rule

end PodFirewall
