import PodFirewall.Cluster.Pod
import PodFirewall.Cluster.Service
import PodFirewall.Policy.Record

/-!
Rules as seen through a service.
Traffic to pods behind a service goes to the address of the service and to its
ports, so a template for a port of the pods becomes one for each port of the
service that leads there.
-/

namespace PodFirewall.Service

/-- Whether two names of protocols are the same up to case. -/
def sameProtocol (a b : String) : Bool := a.map Char.toLower == b.map Char.toLower

def leadsTo (dport : UInt16) (protocol : Option String) (p : ServicePort) : Bool :=
  p.target == dport &&
    match protocol with
    | none => true
    | some name => sameProtocol name p.protocol

/-- The templates for the ports of the service that lead to the port of a
template; a template for all ports stays as it is. -/
def throughPorts (s : Service) (t : Rule) : List Rule :=
  match t.dport with
  | none => [t]
  | some dport =>
    (s.ports.filter (leadsTo dport t.protocol)).map fun p => { t with dport := some p.port }

def seenThrough (s : Service) (templates : List Rule) : List Rule :=
  templates.flatMap s.throughPorts

/-- Whether the service is in front of pods that a query asks for. By name,
this is told by the matching pods of the service's own namespace. -/
def fronts (s : Service) (query : Option Query) (found : List Pod) : Bool :=
  !s.selector.isEmpty &&
    match query with
    | none => true
    | some (.labels l) => s.selector.contained l
    | some (.name n) =>
      found.any fun p =>
        p.namespaceName == s.namespaceName && p.name == n && s.selector.contained p.labels

end PodFirewall.Service
