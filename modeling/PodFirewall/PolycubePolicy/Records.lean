import PodFirewall.NetworkPolicy.Records
import PodFirewall.PolycubePolicy.Basic

/-!
The records of Polycube network policies.
A rule has one entry for each namespace its peer may live in. Rules with an
unknown action, an unknown kind of peer, no address or only unsupported
protocols have no entry. A policy for a service protects the pods behind it,
and the ports of the service stand in where a rule names no protocol.
-/

namespace PodFirewall.PolycubePolicy

/-- The action that a rule asks for; without a word it forwards. -/
def actionOf? : Option String → Option RuleAction
  | none => some .forward
  | some word =>
    match word.map Char.toLower with
    | "drop" | "block" | "forbid" | "prohibit" => some .drop
    | "forward" | "allow" | "pass" | "permit" => some .forward
    | _ => none

/-- The port of an entry. 0 and numbers that are no ports stand for all
ports. -/
def portMatch? (n : Int32) : Option UInt16 :=
  if n.toInt = 0 then none else PortRef.port? n.toInt

def ProtocolEntry.match? (e : ProtocolEntry) : Option PortMatch :=
  (Protocol.ofName? e.protocol).map fun protocol =>
    ⟨some protocol, portMatch? e.ports.source, portMatch? e.ports.destination⟩

def portMatches (protocols : List ProtocolEntry) : List PortMatch :=
  protocols.filterMap ProtocolEntry.match?

def PeerSelector.podQuery (p : PeerSelector) : Option Query :=
  if p.any == some true then none else Query.build? p.withName p.withLabels

/-- The queries on the namespaces of a peer, one for each alternative. -/
def PeerSelector.namespaceQueries (p : PeerSelector) (policyNamespace : String) :
    List (Option Query) :=
  match p.onNamespace with
  | none => [some (.name policyNamespace)]
  | some s =>
    if s.any == some true then [none]
    else if s.withNames.isEmpty then [Query.build? none s.withLabels]
    else s.withNames.map fun n => some (.name n)

def PeerSelector.peers (p : PeerSelector) (policyNamespace : String) : List Peer :=
  match p.kind with
  | .world => if (p.withIp.getD []).isEmpty then [] else [.networks (p.withIp.getD [])]
  | .pod => (p.namespaceQueries policyNamespace).map (.pods p.podQuery)
  | .unknown => []

/-- The protocols and ports of a rule; those of the service without any. -/
def TrafficRule.ports? (r : TrafficRule) (servicePorts : List PortMatch) :
    Option (List PortMatch) :=
  if r.protocols.isEmpty then some servicePorts
  else
    let ports := portMatches r.protocols
    if ports.isEmpty then none else some ports

def TrafficRule.entries (r : TrafficRule) (policyNamespace : String)
    (servicePorts : List PortMatch) : List Record.Entry :=
  match r.ports? servicePorts, actionOf? r.action with
  | some ports, some action =>
    (r.peer.peers policyNamespace).map fun peer =>
      ⟨.ofRule action, some peer, Rule.templates action ports⟩
  | _, _ => []

def Spec.rules (s : Spec) : Direction → DirectionRules
  | .incoming => s.ingress.view
  | .outgoing => s.egress.egressView

def directionRecords (h : Record.Header) (servicePorts : List PortMatch)
    (direction : Direction) (rules : DirectionRules) : List Record :=
  if rules.dropAll then
    [Record.ofEntry h direction 0 0 ⟨.dropAll, none, Rule.templates .drop servicePorts⟩]
  else if rules.allowAll then
    [Record.ofEntry h direction 0 0 ⟨.forwardAll, none, Rule.templates .forward servicePorts⟩]
  else if rules.rules.isEmpty then []
  else
    Record.ofRules h direction
      (rules.rules.map fun r => r.entries h.subject.namespaceName servicePorts)

/-- The pods that a policy protects, and the ports its rules default to. -/
def subject (p : PolycubePolicy) (ns : String) (service : Option Service) :
    Except PolicyError (Subject × List PortMatch) :=
  let target := p.body.applyTo
  match target.kind with
  | .pod =>
    let query := if target.any == some true then none else Query.build? none target.withLabels
    .ok (⟨query, false, ns⟩, [])
  | .service =>
    let name := target.withName.getD ""
    match service with
    | none => .error (.noService name)
    | some service =>
      if service.selector.isEmpty then .error (.noServiceSelector name)
      else .ok (⟨some (.labels service.selector), true, ns⟩, service.podPorts)
  | .unknown => .error .unsupportedTarget

/-- The records of a policy, those for incoming traffic first. The service is
the one that the policy applies to, if it is known. -/
def records (p : PolycubePolicy) (service : Option Service) :
    Except PolicyError (List Record) := do
  let ns ← policyNamespace p.metadata
  let (subject, servicePorts) ← subject p ns service
  let h : Record.Header := {
    parent := ⟨p.metadata.name.getD "", (p.body.priority.map Int32.toInt).getD defaultPriority, .pcn⟩
    created := p.metadata.created
    subject := subject }
  return Direction.all.flatMap fun d =>
    directionRecords h servicePorts d (p.body.spec.rules d)

end PodFirewall.PolycubePolicy
