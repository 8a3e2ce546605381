import PodFirewall.PolycubePolicy.Records

/-!
Policies of either dialect.
-/

namespace PodFirewall

inductive Policy where
  | k8s (p : NetworkPolicy)
  | pcn (p : PolycubePolicy)
  deriving DecidableEq

namespace Policy

def dialect : Policy → Dialect
  | k8s _ => .k8s
  | pcn _ => .pcn

def metadata : Policy → Kube.Metadata
  | k8s p => p.metadata
  | pcn p => p.metadata

def key? (p : Policy) : Option ObjectKey := p.metadata.key?

def serviceTarget : Policy → Except PolicyError (Option String)
  | k8s _ => .ok none
  | pcn p =>
    match p.body.applyTo.kind with
    | .pod => .ok none
    | .service =>
      match p.body.applyTo.withName.filter fun n => !n.isEmpty with
      | some name => .ok (some name)
      | none => .error .noServiceName
    | .unknown => .error .unsupportedTarget

def records (p : Policy) (service : Option Service) : Except PolicyError (List Record) :=
  match p with
  | k8s p => NetworkPolicy.records p
  | pcn p => PolycubePolicy.records p service

def describe (dialect : Dialect) (key : Option ObjectKey) : String :=
  match key with
  | some key => dialect.name ++ " policy " ++ key.text
  | none => dialect.name ++ " policy without name"

def text (p : Policy) : String := describe p.dialect p.key?

end Policy

end PodFirewall
