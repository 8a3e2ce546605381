/-!
Where the API server keeps each kind of objects.
-/

namespace PodFirewall.Kube

inductive Resource where
  | pod
  | namespaces
  | service
  | networkPolicy
  | polycubeNetworkPolicy
  deriving DecidableEq

namespace Resource

def ofName? : String → Option Resource
  | "pod" => some pod
  | "namespace" => some namespaces
  | "service" => some service
  | "networkpolicy" => some networkPolicy
  | "polycubenetworkpolicy" => some polycubeNetworkPolicy
  | _ => none

def apiPath : Resource → String
  | pod | namespaces | service => "/api/v1"
  | networkPolicy => "/apis/networking.k8s.io/v1"
  | polycubeNetworkPolicy => "/apis/polycube.network/v1beta"

def collection : Resource → String
  | pod => "pods"
  | namespaces => "namespaces"
  | service => "services"
  | networkPolicy => "networkpolicies"
  | polycubeNetworkPolicy => "polycubenetworkpolicies"

def isNamespaced : Resource → Bool
  | namespaces => false
  | _ => true

def clusterPath (r : Resource) : String := r.apiPath ++ "/" ++ r.collection

/-- The path of the objects of the kind in one namespace, or in all of them;
`none` for a kind that does not live in namespaces. -/
def namespacedPath? (r : Resource) : Option String → Option String
  | none => if r.isNamespaced then some r.clusterPath else none
  | some name =>
    if r.isNamespaced then some (r.apiPath ++ "/namespaces/" ++ name ++ "/" ++ r.collection)
    else none

end Resource

end PodFirewall.Kube
