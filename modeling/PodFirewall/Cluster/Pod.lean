import PodFirewall.Kube.Schema

/-!
Pods and namespaces, as far as policies depend on them.
-/

namespace PodFirewall

structure Pod where
  name : String
  namespaceName : String
  labels : Labels
  /-- The address of the pod, never empty. -/
  ip : Option String
  node : Option String
  running : Bool
  hostNetwork : Bool
  terminating : Bool
  deriving DecidableEq

namespace Pod

/-- Whether a pod runs, has an address and is not on its way out. -/
def live (p : Pod) : Bool := p.running && p.ip.isSome && !p.terminating

def ofShaped (m : Kube.Metadata) (j : Json) : Pod where
  name := m.name.getD ""
  namespaceName := m.namespaceName.getD ""
  labels := m.labels
  ip := (Kube.textAt? (j.getD "status") "podIP").filter fun ip => !ip.isEmpty
  node := Kube.textAt? (j.getD "spec") "nodeName"
  running := Kube.textAt? (j.getD "status") "phase" == some "Running"
  hostNetwork := (((j.getD "spec").get? "hostNetwork").bind Json.bool?).getD false
  terminating := m.deleting

def ofJson? : Json → Option (Kube.Object Pod) :=
  Kube.objectOfJson? "v1" "Pod" Kube.Schema.pod ofShaped

end Pod

structure Namespace where
  name : String
  labels : Labels
  deriving DecidableEq

namespace Namespace

def ofJson? : Json → Option (Kube.Object Namespace) :=
  Kube.objectOfJson? "v1" "Namespace" Kube.Schema.namespaces
    fun m _ => ⟨m.name.getD "", m.labels⟩

end Namespace

end PodFirewall
