import PodFirewall.Address.Cidr
import PodFirewall.Cluster.Basic
import PodFirewall.Resolve.Service

/-!
From records to rules.
The templates of a record are filled in with the addresses of its peer: the
networks it names, or the live pods it asks for, under their own address and,
for incoming traffic, under their virtual one. Outgoing traffic also gets the
addresses of the services in front of these pods. The rules for a peer come in
a fixed order and without repetition; templates for all packets stay as they
are.
-/

namespace PodFirewall

/-- Where records are resolved: a cluster, and the range of the virtual
addresses of pods, if they have any. -/
structure Resolver where
  cluster : Cluster
  range : Option Ipv4Range

namespace Resolver

def fillAll (direction : Direction) (templates : List Rule) (address : String) : List Rule :=
  templates.map (Rule.fillPeer direction address)

/-- The addresses under which traffic of a pod is seen. -/
def podAddresses (range : Option Ipv4Range) (direction : Direction) (p : Pod) : List String :=
  match p.ip with
  | none => []
  | some ip =>
    match direction, range with
    | .incoming, some range => ip :: (range.virtualText ip).toList
    | _, _ => [ip]

def serviceRules (templates : List Rule) (query : Option Query) (found : List Pod)
    (s : Service) : List Rule :=
  match s.clusterIp with
  | none => []
  | some ip =>
    if s.fronts query found then fillAll .outgoing (s.seenThrough templates) ip else []

def resolvePods (r : Resolver) (direction : Direction) (templates : List Rule)
    (query namespaces : Option Query) : Except NotReady (List Rule) := do
  let spaces ← r.cluster.namespacesOf namespaces
  let found ← spaces.mapM fun n => r.cluster.podsIn query n.name
  let pods := found.flatten
  let direct := pods.flatMap fun p =>
    (podAddresses r.range direction p).flatMap (fillAll direction templates)
  match direction with
  | .incoming => return direct
  | .outgoing =>
    let services ← spaces.mapM fun n => r.cluster.servicesIn n.name
    return direct ++ services.flatten.flatMap (serviceRules templates query pods)

def resolve (r : Resolver) (record : Record) : Except NotReady (List Rule) :=
  if record.action.isAll then .ok record.templates
  else
    match record.peer with
    | none => .ok []
    | some (.networks texts) =>
      .ok (texts.flatMap (fillAll record.direction record.templates)).eraseDups
    | some (.pods query namespaces) =>
      match r.resolvePods record.direction record.templates query namespaces with
      | .ok rules => .ok rules.eraseDups
      | .error e => .error e

end Resolver

end PodFirewall
