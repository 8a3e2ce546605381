import PodFirewall.Kube.Resource
import PodFirewall.Manager.Basic
import PodFirewall.PolycubePolicy.Json

/-!
The manager together with what was processed of each kind of objects.
An event goes to the store of its kind; each key it touched is then compared
with what was last processed, and the difference is handed to the manager. A
change counts as processed once the manager has handled it without failure.
-/

namespace PodFirewall

structure Operator where
  manager : Manager
  pods : Tracker ObjectKey (Stored Pod)
  namespaces : Tracker ObjectKey (Stored Namespace)
  services : Tracker ObjectKey (Stored Service)
  k8sPolicies : Tracker ObjectKey (Stored NetworkPolicy.Spec)
  pcnPolicies : Tracker ObjectKey (Stored PolycubePolicy.Body)

structure Handled where
  key : ObjectKey
  kind : ChangeKind
  result : Manager.Result

/-- One kind of objects: how they are read, and where its store, its tracker
and its handler are. -/
structure Watched (α : Type) where
  read : Json → Option (Kube.Object α)
  store : Manager → Store α
  setStore : Manager → Store α → Manager
  tracker : Operator → Tracker ObjectKey (Stored α)
  setTracker : Operator → Tracker ObjectKey (Stored α) → Operator
  handle : Manager → Nat → ObjectKey → Change (Stored α) → Manager.Result × Manager

namespace Watched

def pods : Watched Pod where
  read := Pod.ofJson?
  store m := m.cluster.pods
  setStore m s := { m with cluster := { m.cluster with pods := s } }
  tracker o := o.pods
  setTracker o t := { o with pods := t }
  handle := Manager.onPod

def namespaces : Watched Namespace where
  read := Namespace.ofJson?
  store m := m.cluster.namespaces
  setStore m s := { m with cluster := { m.cluster with namespaces := s } }
  tracker o := o.namespaces
  setTracker o t := { o with namespaces := t }
  handle m _ _ change := m.onNamespace change

def services : Watched Service where
  read := Service.ofJson?
  store m := m.cluster.services
  setStore m s := { m with cluster := { m.cluster with services := s } }
  tracker o := o.services
  setTracker o t := { o with services := t }
  handle m _ key change := m.onService key change

def k8sPolicies : Watched NetworkPolicy.Spec where
  read := NetworkPolicy.ofJson?
  store m := m.k8sPolicies
  setStore m s := { m with k8sPolicies := s }
  tracker o := o.k8sPolicies
  setTracker o t := { o with k8sPolicies := t }
  handle m _ key change := m.onNetworkPolicy key change

def pcnPolicies : Watched PolycubePolicy.Body where
  read := PolycubePolicy.ofJson?
  store m := m.pcnPolicies
  setStore m s := { m with pcnPolicies := s }
  tracker o := o.pcnPolicies
  setTracker o t := { o with pcnPolicies := t }
  handle m _ key change := m.onPolycubePolicy key change

def ofResource : Kube.Resource → (α : Type) × Watched α
  | .pod => ⟨_, pods⟩
  | .namespaces => ⟨_, namespaces⟩
  | .service => ⟨_, services⟩
  | .networkPolicy => ⟨_, k8sPolicies⟩
  | .polycubeNetworkPolicy => ⟨_, pcnPolicies⟩

end Watched

namespace Operator

def start (node : String) (ignored : List String) (range : Option Ipv4Range) (b : Backend) :
    Operator where
  manager := ⟨node, ignored, range, default, default, default, Fleet.empty b⟩
  pods := default
  namespaces := default
  services := default
  k8sPolicies := default
  pcnPolicies := default

variable {α : Type}

/-- Handles what changed of a key since it was last processed, if anything
did. -/
def process (o : Operator) (w : Watched α) (now : Nat) (key : ObjectKey) :
    Option Handled × Operator :=
  match (w.tracker o).check key ((w.store o.manager).get? key) with
  | none => (none, o)
  | some change =>
    match w.handle o.manager now key change with
    | (.ok (), m) =>
      let o := { o with manager := m }
      (some ⟨key, change.kind, .ok ()⟩, w.setTracker o ((w.tracker o).done key change))
    | (.error e, m) => (some ⟨key, change.kind, .error e⟩, { o with manager := m })

def processEach (w : Watched α) (now : Nat) : List ObjectKey → Operator → List Handled × Operator
  | [], o => ([], o)
  | key :: rest, o =>
    match o.process w now key with
    | (handled, o) =>
      match processEach w now rest o with
      | (more, o) => (handled.toList ++ more, o)

def ingest (o : Operator) (w : Watched α) (events : List (WatchEvent α)) :
    List ObjectKey × Operator :=
  match (w.store o.manager).ingestAll events with
  | (s, changed) => (changed, { o with manager := w.setStore o.manager s })

end Operator

end PodFirewall
