import PodFirewall.Policy.Selection

/-!
The records of standard network policies.
A rule has one entry for each peer, and one more in front of it for the
exceptions of a block. Ports and peers that cannot be expressed are left out;
a rule all of whose ports are left out has no entry.
-/

namespace PodFirewall

inductive PolicyError where
  | unsupportedSubject (cause : PeerError)
  | unsupportedTarget
  | noNamespace
  | noServiceName
  | noService (name : String)
  | noServiceSelector (name : String)
  deriving DecidableEq

namespace PolicyError

def message : PolicyError → String
  | unsupportedSubject cause => "unsupported subject: " ++ cause.message
  | unsupportedTarget => "unsupported target kind"
  | noNamespace => "policy has no namespace"
  | noServiceName => "service target has no name"
  | noService name => "service " ++ name ++ " not found"
  | noServiceSelector name => "service " ++ name ++ " has no selector"

end PolicyError

/-- The priority of a policy that does not state one. -/
def defaultPriority : Int := 5

/-- The namespace of a policy; an empty one counts as missing. -/
def policyNamespace (m : Kube.Metadata) : Except PolicyError String :=
  match m.namespaceName.filter fun n => !n.isEmpty with
  | some n => .ok n
  | none => .error .noNamespace

namespace NetworkPolicy

/-- The protocol of a port; only TCP and UDP are supported. -/
def Port.protocolMatch? (p : Port) : Option (Option Protocol) :=
  match p.protocol with
  | none => some none
  | some name =>
    match Protocol.ofName? name with
    | some .tcp => some (some .tcp)
    | some .udp => some (some .udp)
    | _ => none

/-- The number of a port. A port by name is not supported; 0 and a missing
port stand for all ports. -/
def Port.number? (p : Port) : Option (Option UInt16) :=
  match p.port with
  | none => some none
  | some (.number n) =>
    if n = 0 then some none else (PortRef.port? n).map some
  | some (.name _) => none

/-- The match for a port. A range of ports is not supported. -/
def Port.match? (p : Port) : Option PortMatch := do
  let protocol ← p.protocolMatch?
  if p.endPort.isSome then none
  else
    let dport ← p.number?
    some ⟨protocol, none, dport⟩

def portMatches (ports : List Port) : List PortMatch := ports.filterMap Port.match?

/-- The exceptions of a peer, and the peer itself. -/
def PeerSelector.peers (p : PeerSelector) (policyNamespace : String) :
    Except PeerError (Option Peer × Peer) :=
  match p.ipBlock with
  | some block => Peer.ofBlock block
  | none => (Peer.ofSelectors p.pods p.namespaces policyNamespace).map (none, ·)

/-- The entries for a peer: one that drops the packets of its exceptions, one
that forwards those of the peer. -/
def PeerSelector.entries (p : PeerSelector) (policyNamespace : String)
    (ports : List PortMatch) : List Record.Entry :=
  match p.peers policyNamespace with
  | .error _ => []
  | .ok (except, peer) =>
    except.toList.map (fun e => ⟨.drop, some e, Rule.templates .drop ports⟩) ++
      [⟨.forward, some peer, Rule.templates .forward ports⟩]

def PolicyRule.entries (r : PolicyRule) (policyNamespace : String) : List Record.Entry :=
  let ports := portMatches r.ports
  -- without its ports the rule would be for all ports, so it is left out
  if !r.ports.isEmpty && ports.isEmpty then []
  else if r.peers.isEmpty then [⟨.forwardAll, none, Rule.templates .forward ports⟩]
  else r.peers.flatMap fun p => p.entries policyNamespace ports

/-- Whether a policy restricts a direction. Without a list of directions it
restricts incoming traffic. -/
def Spec.restricts (s : Spec) : Direction → Bool
  | .incoming => s.types.isEmpty || s.types.contains "Ingress"
  | .outgoing => s.types.contains "Egress"

def Spec.rules (s : Spec) : Direction → List PolicyRule
  | .incoming => s.ingress
  | .outgoing => s.egress

def header (p : NetworkPolicy) : Except PolicyError Record.Header := do
  let ns ← policyNamespace p.metadata
  let query ← match p.body.podSelector.query with
    | .ok query => .ok query
    | .error e => .error (.unsupportedSubject e)
  return {
    parent := ⟨p.metadata.name.getD "", defaultPriority, .k8s⟩
    created := p.metadata.created
    subject := ⟨query, false, ns⟩ }

def directionRecords (p : NetworkPolicy) (h : Record.Header) (direction : Direction) :
    List Record :=
  if p.body.restricts direction then
    Record.ofRules h direction
      ((p.body.rules direction).map fun r => r.entries h.subject.namespaceName)
  else []

/-- The records of a policy, those for incoming traffic first. -/
def records (p : NetworkPolicy) : Except PolicyError (List Record) := do
  let h ← header p
  return Direction.all.flatMap (directionRecords p h)

end NetworkPolicy

end PodFirewall
