import PodFirewall.Cluster.Pod
import PodFirewall.Cluster.Service
import PodFirewall.Policy.Query
import PodFirewall.Watch.Store

/-!
The objects of a cluster that peers are resolved against.
A question can be answered once the store it goes to has seen a whole listing.
-/

namespace PodFirewall

/-- A store that has not seen a listing yet. -/
inductive NotReady where
  | pods
  | namespaces
  | services
  deriving DecidableEq

namespace NotReady

def store : NotReady → String
  | pods => "pods"
  | namespaces => "namespaces"
  | services => "services"

def message (e : NotReady) : String := e.store ++ " cache is not synced yet"

end NotReady

structure Cluster where
  pods : Store Pod
  namespaces : Store Namespace
  services : Store Service

instance : Inhabited Cluster := ⟨⟨default, default, default⟩⟩

namespace Cluster

def livesIn {α : Type} (namespaceName : String) (o : Kube.Object α) : Bool :=
  o.metadata.namespaceName == some namespaceName

/-- The live pods of a namespace that a query matches. -/
def podsIn (c : Cluster) (query : Option Query) (namespaceName : String) :
    Except NotReady (List Pod) :=
  if c.pods.ready then
    .ok (((c.pods.list (livesIn namespaceName)).map (·.object.body)).filter fun p =>
      p.live && Query.allows query p.name p.labels)
  else .error .pods

def namespacesOf (c : Cluster) (query : Option Query) : Except NotReady (List Namespace) :=
  if c.namespaces.ready then
    .ok (((c.namespaces.list fun _ => true).map (·.object.body)).filter fun n =>
      Query.allows query n.name n.labels)
  else .error .namespaces

def servicesIn (c : Cluster) (namespaceName : String) : Except NotReady (List Service) :=
  if c.services.ready then
    .ok ((c.services.list (livesIn namespaceName)).map (·.object.body))
  else .error .services

def service? (c : Cluster) (namespaceName name : String) : Except NotReady (Option Service) :=
  if c.services.ready then
    .ok ((c.services.get? ⟨namespaceName, name⟩).map (·.object.body))
  else .error .services

/-- The namespace with a name; one without labels if it is not known. -/
def namespaceNamed (c : Cluster) (name : String) : Except NotReady Namespace := do
  let found ← c.namespacesOf (some (.name name))
  return found.head?.getD ⟨name, ∅⟩

end Cluster

end PodFirewall
