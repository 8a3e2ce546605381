import PodFirewall.Cluster.Basic
import PodFirewall.Policy.Json

/-!
The JSON form of what is known of pods, namespaces and services. It is
written with every field.
-/

namespace PodFirewall

def Pod.toJson (p : Pod) : Json :=
  .obj
    [("name", .str p.name), ("namespace", .str p.namespaceName), ("labels", p.labels.toJson),
      ("ip", Json.ofOption .str p.ip), ("node", Json.ofOption .str p.node),
      ("running", .bool p.running), ("host_network", .bool p.hostNetwork),
      ("terminating", .bool p.terminating), ("live", .bool p.live)]

def Namespace.toJson (n : Namespace) : Json :=
  .obj [("name", .str n.name), ("labels", n.labels.toJson)]

def ServicePort.toJson (p : ServicePort) : Json :=
  .obj
    [("protocol", .str p.protocol), ("port", Rule.portToJson p.port),
      ("target_port", Json.ofOption Rule.portToJson p.targetPort)]

def Service.toJson (s : Service) : Json :=
  .obj
    [("name", .str s.name), ("namespace", .str s.namespaceName),
      ("selector", s.selector.toJson), ("cluster_ip", Json.ofOption .str s.clusterIp),
      ("ports", Json.ofList ServicePort.toJson s.ports)]

/-- The store after the listing at a field; a store that has seen nothing if
the field is missing. -/
def Store.listedAt? {α : Type} (read : Json → Option (Kube.Object α)) (j : Json)
    (name : String) : Option (Store α) := do
  match ← Json.nullable? (Json.list? read) (j.getD name) with
  | none => return .empty
  | some objects => return .ofListing objects

def Cluster.ofJson? (j : Json) : Option Cluster := do
  return {
    pods := ← Store.listedAt? Pod.ofJson? j "pods"
    namespaces := ← Store.listedAt? Namespace.ofJson? j "namespaces"
    services := ← Store.listedAt? Service.ofJson? j "services" }

end PodFirewall
