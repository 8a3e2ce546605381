import PodFirewall.Cluster.Service
import PodFirewall.Policy.Record

/-!
Standard network policies.
-/

namespace PodFirewall

structure LabelSelector where
  labels : Labels
  /-- Whether it has requirements other than equality of labels. -/
  hasExpressions : Bool
  deriving DecidableEq

structure IpBlock where
  cidr : String
  except : List String
  deriving DecidableEq

namespace NetworkPolicy

structure Port where
  protocol : Option String
  port : Option PortRef
  endPort : Option Int
  deriving DecidableEq

structure PeerSelector where
  ipBlock : Option IpBlock
  pods : Option LabelSelector
  namespaces : Option LabelSelector
  deriving DecidableEq

/-- A rule. Without peers it is for all of them, without ports for all of
them. -/
structure PolicyRule where
  peers : List PeerSelector
  ports : List Port
  deriving DecidableEq

structure Spec where
  podSelector : LabelSelector
  types : List String
  ingress : List PolicyRule
  egress : List PolicyRule
  deriving DecidableEq

end NetworkPolicy

abbrev NetworkPolicy := Kube.Object NetworkPolicy.Spec

/-! ### Reading -/

def LabelSelector.ofShaped (j : Json) : LabelSelector where
  labels := Kube.labelsAt j "matchLabels"
  hasExpressions := ((Kube.elementsAt? j "matchExpressions").getD []).isEmpty == false

def LabelSelector.ofJson? (j : Json) : Option LabelSelector :=
  if Kube.Schema.labelSelector.admits j then some (ofShaped j) else none

def IpBlock.ofShaped (j : Json) : IpBlock where
  cidr := (Kube.textAt? j "cidr").getD ""
  except := (Kube.textsAt? j "except").getD []

def IpBlock.ofJson? (j : Json) : Option IpBlock :=
  if Kube.Schema.ipBlock.admits j then some (ofShaped j) else none

namespace NetworkPolicy

def Port.ofShaped (j : Json) : Port where
  protocol := Kube.textAt? j "protocol"
  port := (j.get? "port").bind PortRef.ofJson?
  endPort := (j.get? "endPort").bind Json.int?

def Port.ofJson? (j : Json) : Option Port :=
  if Kube.Schema.policyPort.admits j then some (ofShaped j) else none

def PeerSelector.ofShaped (j : Json) : PeerSelector where
  ipBlock := (Kube.recordAt? j "ipBlock").map IpBlock.ofShaped
  pods := (Kube.recordAt? j "podSelector").map LabelSelector.ofShaped
  namespaces := (Kube.recordAt? j "namespaceSelector").map LabelSelector.ofShaped

/-- The rule in a value of the right shape, its peers at the given field. -/
def PolicyRule.ofShaped (peers : String) (j : Json) : PolicyRule where
  peers := ((Kube.elementsAt? j peers).getD []).map PeerSelector.ofShaped
  ports := ((Kube.elementsAt? j "ports").getD []).map Port.ofShaped

def Spec.ofShaped (j : Json) : Spec where
  podSelector := LabelSelector.ofShaped (j.getD "podSelector")
  types := (Kube.textsAt? j "policyTypes").getD []
  ingress := ((Kube.elementsAt? j "ingress").getD []).map (PolicyRule.ofShaped "from")
  egress := ((Kube.elementsAt? j "egress").getD []).map (PolicyRule.ofShaped "to")

def ofJson? : Json → Option NetworkPolicy :=
  Kube.objectOfJson? "networking.k8s.io/v1" "NetworkPolicy" Kube.Schema.networkPolicy
    fun _ j => Spec.ofShaped (j.getD "spec")

end NetworkPolicy

end PodFirewall
