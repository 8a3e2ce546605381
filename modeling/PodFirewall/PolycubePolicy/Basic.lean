import PodFirewall.Kube.Metadata

/-!
Polycube network policies: a custom resource with a target, a priority and one
set of rules for each direction.
The types hold what an object says, including what nothing is made of, so that
an object can be written back as it was.
-/

namespace PodFirewall.PolycubePolicy

inductive TargetKind where
  | pod
  | service
  | unknown
  deriving DecidableEq

structure Target where
  kind : TargetKind
  any : Option Bool
  withName : Option String
  withLabels : Option Labels
  deriving DecidableEq

inductive PeerKind where
  | pod
  | world
  | unknown
  deriving DecidableEq

structure NamespaceSelector where
  withNames : List String
  withLabels : Option Labels
  any : Option Bool
  deriving DecidableEq

structure PeerSelector where
  kind : PeerKind
  any : Option Bool
  withName : Option String
  withLabels : Option Labels
  /-- The addresses of a peer outside of the cluster. -/
  withIp : Option (List String)
  onNamespace : Option NamespaceSelector
  deriving DecidableEq

/-- The ports of a protocol entry; 0 stands for any port. -/
structure Ports where
  source : Int32
  destination : Int32
  deriving DecidableEq

structure ProtocolEntry where
  ports : Ports
  protocol : String
  deriving DecidableEq

/-- What the rules of both directions have in common. -/
structure TrafficRule where
  peer : PeerSelector
  protocols : List ProtocolEntry
  action : Option String
  description : Option String
  deriving DecidableEq

structure EgressRule extends TrafficRule where
  tcpFlags : List String
  deriving DecidableEq

/-- The rules of a direction, or a word on all of its traffic. -/
structure RuleSet (ρ : Type) where
  dropAll : Option Bool
  allowAll : Option Bool
  rules : Option (List ρ)
  deriving DecidableEq

structure IngressRules extends RuleSet TrafficRule where
  preventDirectAccess : Option Bool
  deriving DecidableEq

abbrev EgressRules := RuleSet EgressRule

structure Spec where
  description : Option String
  ingress : IngressRules
  egress : EgressRules
  deriving DecidableEq

/-- A policy without its metadata. -/
structure Body where
  applyTo : Target
  priority : Option Int32
  spec : Spec
  deriving DecidableEq

/-! ### What is left out -/

instance : Inhabited Target := ⟨⟨.pod, none, none, none⟩⟩
instance : Inhabited PeerSelector := ⟨⟨.pod, none, none, none, none, none⟩⟩
instance : Inhabited Ports := ⟨⟨0, 0⟩⟩
instance {ρ : Type} : Inhabited (RuleSet ρ) := ⟨⟨none, none, none⟩⟩
instance : Inhabited IngressRules := ⟨⟨default, none⟩⟩
instance : Inhabited Spec := ⟨⟨none, default, default⟩⟩

/-! ### The common view of both directions -/

/-- What a rule set says of a direction. -/
structure DirectionRules where
  dropAll : Bool
  allowAll : Bool
  rules : List TrafficRule

def IngressRules.view (s : IngressRules) : DirectionRules :=
  ⟨s.dropAll == some true, s.allowAll == some true, s.rules.getD []⟩

def RuleSet.egressView (s : EgressRules) : DirectionRules :=
  ⟨s.dropAll == some true, s.allowAll == some true,
    (s.rules.getD []).map EgressRule.toTrafficRule⟩

def DirectionRules.filled (r : DirectionRules) : Bool :=
  r.dropAll || r.allowAll || !r.rules.isEmpty

end PodFirewall.PolycubePolicy

namespace PodFirewall

abbrev PolycubePolicy := Kube.Object PolycubePolicy.Body

end PodFirewall
