import PodFirewall.Kube.Schema
import PodFirewall.Rule.Template

/-!
Services: pods behind one address, whose ports lead to those of the pods.
-/

namespace PodFirewall

/-- A number or a text, as API objects name ports. -/
inductive PortRef where
  | number (n : Int)
  | name (s : String)
  deriving DecidableEq

namespace PortRef

def ofJson? : Json → Option PortRef
  | .int n => some (.number n)
  | .str s => some (.name s)
  | _ => none

def port? (n : Int) : Option UInt16 :=
  if 0 ≤ n ∧ n < 65536 then some (UInt16.ofNat n.toNat) else none

end PortRef

structure ServicePort where
  protocol : String
  port : UInt16
  /-- The port of the pods, if it is given by number. -/
  targetPort : Option UInt16
  deriving DecidableEq

namespace ServicePort

/-- The port that the pods behind the service listen on. A port that is named
or missing is taken to be that of the service. -/
def target (p : ServicePort) : UInt16 := p.targetPort.getD p.port

/-- The port in a value of the right shape; `none` if its number is no port. -/
def ofShaped? (j : Json) : Option ServicePort := do
  let number := ((j.get? "port").bind Json.int?).getD 0
  let port ← PortRef.port? number
  return {
    protocol := (Kube.textAt? j "protocol").getD "TCP"
    port := port
    targetPort := ((j.get? "targetPort").bind Json.int?).bind PortRef.port? }

end ServicePort

structure Service where
  name : String
  namespaceName : String
  selector : Labels
  clusterIp : Option String
  ports : List ServicePort
  deriving DecidableEq

namespace Service

def ofShaped (m : Kube.Metadata) (j : Json) : Service where
  name := m.name.getD ""
  namespaceName := m.namespaceName.getD ""
  selector := Kube.labelsAt (j.getD "spec") "selector"
  clusterIp := (Kube.textAt? (j.getD "spec") "clusterIP").filter fun ip =>
    !ip.isEmpty && ip != "None"
  ports := ((Kube.elementsAt? (j.getD "spec") "ports").getD []).filterMap ServicePort.ofShaped?

def ofJson? : Json → Option (Kube.Object Service) :=
  Kube.objectOfJson? "v1" "Service" Kube.Schema.service ofShaped

/-- The ports that the pods behind the service listen on, as far as the
protocol is TCP or UDP. -/
def podPorts (s : Service) : List PortMatch :=
  s.ports.filterMap fun p =>
    match Protocol.ofName? p.protocol with
    | some .tcp => some ⟨some .tcp, none, some p.target⟩
    | some .udp => some ⟨some .udp, none, some p.target⟩
    | _ => none

end Service

end PodFirewall
