import PodFirewall.PolycubePolicy.Basic

/-!
The JSON form of Polycube network policies.
What is not set is not written, and lists of rules, names and flags only if
they are not empty; a missing field is read as not set. Fields that have a
default may be missing but not `null`.
-/

namespace PodFirewall.PolycubePolicy

/-! ### Writing -/

/-- A list that is written only if it has elements. -/
def optionalList {α : Type} (name : String) (f : α → Json) (l : List α) :
    List (String × Json) :=
  Json.optional name (if l.isEmpty then none else some (Json.ofList f l))

def int32ToJson (n : Int32) : Json := .int n.toInt

def TargetKind.name : TargetKind → String
  | pod => "pod"
  | service => "service"
  | unknown => "unknown"

def PeerKind.name : PeerKind → String
  | pod => "pod"
  | world => "world"
  | unknown => "unknown"

def Target.toJson (t : Target) : Json :=
  .obj
    (("target", .str t.kind.name) ::
      (Json.optional "any" (t.any.map .bool) ++
        Json.optional "withName" (t.withName.map .str) ++
        Json.optional "withLabels" (t.withLabels.map Labels.toJson)))

def NamespaceSelector.toJson (s : NamespaceSelector) : Json :=
  .obj
    (optionalList "withNames" .str s.withNames ++
      Json.optional "withLabels" (s.withLabels.map Labels.toJson) ++
      Json.optional "any" (s.any.map .bool))

def addressesToJson (list : List String) : Json := .obj [("list", Json.ofList .str list)]

def PeerSelector.toJson (p : PeerSelector) : Json :=
  .obj
    (("peer", .str p.kind.name) ::
      (Json.optional "any" (p.any.map .bool) ++
        Json.optional "withName" (p.withName.map .str) ++
        Json.optional "withLabels" (p.withLabels.map Labels.toJson) ++
        Json.optional "withIP" (p.withIp.map addressesToJson) ++
        Json.optional "onNamespace" (p.onNamespace.map NamespaceSelector.toJson)))

def Ports.toJson (p : Ports) : Json :=
  .obj [("source", int32ToJson p.source), ("destination", int32ToJson p.destination)]

def ProtocolEntry.toJson (p : ProtocolEntry) : Json :=
  .obj [("ports", p.ports.toJson), ("protocol", .str p.protocol)]

def TrafficRule.toJson (r : TrafficRule) : Json :=
  .obj
    (("from", r.peer.toJson) ::
      (optionalList "protocols" ProtocolEntry.toJson r.protocols ++
        Json.optional "action" (r.action.map .str) ++
        Json.optional "description" (r.description.map .str)))

def EgressRule.toJson (r : EgressRule) : Json :=
  .obj
    (("to", r.peer.toJson) ::
      (optionalList "protocols" ProtocolEntry.toJson r.protocols ++
        optionalList "tcpflags" .str r.tcpFlags ++
        Json.optional "action" (r.action.map .str) ++
        Json.optional "description" (r.description.map .str)))

def IngressRules.toJson (s : IngressRules) : Json :=
  .obj
    (Json.optional "dropAll" (s.dropAll.map .bool) ++
      Json.optional "allowAll" (s.allowAll.map .bool) ++
      Json.optional "preventDirectAccess" (s.preventDirectAccess.map .bool) ++
      Json.optional "rules" (s.rules.map (Json.ofList TrafficRule.toJson)))

def egressToJson (s : EgressRules) : Json :=
  .obj
    (Json.optional "dropAll" (s.dropAll.map .bool) ++
      Json.optional "allowAll" (s.allowAll.map .bool) ++
      Json.optional "rules" (s.rules.map (Json.ofList EgressRule.toJson)))

def Spec.toJson (s : Spec) : Json :=
  .obj
    (Json.optional "description" (s.description.map .str) ++
      [("ingressRules", s.ingress.toJson), ("egressRules", egressToJson s.egress)])

def Body.toJson (b : Body) : Json :=
  .obj
    (("applyTo", b.applyTo.toJson) ::
      (Json.optional "priority" (b.priority.map int32ToJson) ++ [("spec", b.spec.toJson)]))

/-! ### Reading -/

/-- The kind of target that a value names; any unknown name is one kind. -/
def TargetKind.ofJson? (j : Json) : Option TargetKind :=
  (Json.variantName? j).map fun name =>
    match name with
    | "pod" => .pod
    | "service" => .service
    | _ => .unknown

def PeerKind.ofJson? (j : Json) : Option PeerKind :=
  (Json.variantName? j).map fun name =>
    match name with
    | "pod" => .pod
    | "world" => .world
    | _ => .unknown

def Target.ofJson? (j : Json) : Option Target := do
  let fields ← Json.fields? ["target", "any", "withName", "withLabels"] 0 j
  return {
    kind := ← Json.withDefault fields "target" TargetKind.ofJson? .pod
    any := ← Json.maybe fields "any" Json.bool?
    withName := ← Json.maybe fields "withName" Json.str?
    withLabels := ← Json.maybe fields "withLabels" Labels.ofJson? }

def NamespaceSelector.ofJson? (j : Json) : Option NamespaceSelector := do
  let fields ← Json.fields? ["withNames", "withLabels", "any"] 0 j
  return {
    withNames := ← Json.withDefault fields "withNames" (Json.list? Json.str?) []
    withLabels := ← Json.maybe fields "withLabels" Labels.ofJson?
    any := ← Json.maybe fields "any" Json.bool? }

def addressesOfJson? (j : Json) : Option (List String) := do
  let fields ← Json.fields? ["list"] 0 j
  Json.withDefault fields "list" (Json.list? Json.str?) []

def PeerSelector.ofJson? (j : Json) : Option PeerSelector := do
  let fields ←
    Json.fields? ["peer", "any", "withName", "withLabels", "withIP", "onNamespace"] 0 j
  return {
    kind := ← Json.withDefault fields "peer" PeerKind.ofJson? .pod
    any := ← Json.maybe fields "any" Json.bool?
    withName := ← Json.maybe fields "withName" Json.str?
    withLabels := ← Json.maybe fields "withLabels" Labels.ofJson?
    withIp := ← Json.maybe fields "withIP" addressesOfJson?
    onNamespace := ← Json.maybe fields "onNamespace" NamespaceSelector.ofJson? }

def Ports.ofJson? (j : Json) : Option Ports := do
  let fields ← Json.fields? ["source", "destination"] 0 j
  return {
    source := ← Json.withDefault fields "source" Json.int32? 0
    destination := ← Json.withDefault fields "destination" Json.int32? 0 }

def ProtocolEntry.ofJson? (j : Json) : Option ProtocolEntry := do
  let fields ← Json.fields? ["ports", "protocol"] 0 j
  return {
    ports := ← Json.withDefault fields "ports" Ports.ofJson? default
    protocol := ← Json.withDefault fields "protocol" Json.str? "" }

def TrafficRule.ofJson? (j : Json) : Option TrafficRule := do
  let fields ← Json.fields? ["from", "protocols", "action", "description"] 0 j
  return {
    peer := ← Json.withDefault fields "from" PeerSelector.ofJson? default
    protocols := ← Json.withDefault fields "protocols" (Json.list? ProtocolEntry.ofJson?) []
    action := ← Json.maybe fields "action" Json.str?
    description := ← Json.maybe fields "description" Json.str? }

def EgressRule.ofJson? (j : Json) : Option EgressRule := do
  let fields ← Json.fields? ["to", "protocols", "tcpflags", "action", "description"] 0 j
  return {
    peer := ← Json.withDefault fields "to" PeerSelector.ofJson? default
    protocols := ← Json.withDefault fields "protocols" (Json.list? ProtocolEntry.ofJson?) []
    tcpFlags := ← Json.withDefault fields "tcpflags" (Json.list? Json.str?) []
    action := ← Json.maybe fields "action" Json.str?
    description := ← Json.maybe fields "description" Json.str? }

def IngressRules.ofJson? (j : Json) : Option IngressRules := do
  let fields ← Json.fields? ["dropAll", "allowAll", "preventDirectAccess", "rules"] 0 j
  return {
    dropAll := ← Json.maybe fields "dropAll" Json.bool?
    allowAll := ← Json.maybe fields "allowAll" Json.bool?
    preventDirectAccess := ← Json.maybe fields "preventDirectAccess" Json.bool?
    rules := ← Json.maybe fields "rules" (Json.list? TrafficRule.ofJson?) }

def egressOfJson? (j : Json) : Option EgressRules := do
  let fields ← Json.fields? ["dropAll", "allowAll", "rules"] 0 j
  return {
    dropAll := ← Json.maybe fields "dropAll" Json.bool?
    allowAll := ← Json.maybe fields "allowAll" Json.bool?
    rules := ← Json.maybe fields "rules" (Json.list? EgressRule.ofJson?) }

def Spec.ofJson? (j : Json) : Option Spec := do
  let fields ← Json.fields? ["description", "ingressRules", "egressRules"] 0 j
  return {
    description := ← Json.maybe fields "description" Json.str?
    ingress := ← Json.withDefault fields "ingressRules" IngressRules.ofJson? default
    egress := ← Json.withDefault fields "egressRules" egressOfJson? default }

def Body.ofFields? (fields : List (String × Json)) : Option Body := do
  return {
    applyTo := ← Json.withDefault fields "applyTo" Target.ofJson? default
    priority := ← Json.maybe fields "priority" Json.int32?
    spec := ← Json.withDefault fields "spec" Spec.ofJson? default }

/-- The policy that a value writes. Its metadata must be there. -/
def ofJson? (j : Json) : Option PolycubePolicy := do
  let fields ← Json.fields? ["metadata", "applyTo", "priority", "spec"] 1 j
  return {
    metadata := ← Json.required fields "metadata" Kube.Metadata.ofJson?
    body := ← Body.ofFields? fields }

end PodFirewall.PolycubePolicy
