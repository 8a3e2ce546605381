import PodFirewall.Policy.Order
import PodFirewall.Rule.Json

/-!
The JSON form of records and of what they are made of.
A missing member counts as `null`, and `null` as what is there by default:
nothing, the empty text, or the priority 0.
A record is written with the key of its peer next to the peer.
-/

namespace PodFirewall

def Timestamp.ofJson? (j : Json) : Option Timestamp := (Json.str? j).bind Timestamp.parse?

namespace Direction

def name : Direction → String
  | incoming => "incoming"
  | outgoing => "outgoing"

def ofJson? : Json → Option Direction
  | .str "incoming" => some incoming
  | .str "outgoing" => some outgoing
  | _ => none

end Direction

def Chain.ofJson? : Json → Option Chain
  | .str "ingress" => some .ingress
  | .str "egress" => some .egress
  | _ => none

def Dialect.ofJson? : Json → Option Dialect
  | .str "k8s" => some .k8s
  | .str "pcn" => some .pcn
  | _ => none

def PolicyAction.ofJson? : Json → Option PolicyAction
  | .str "forward" => some .forward
  | .str "drop" => some .drop
  | .str "forward-all" => some .forwardAll
  | .str "drop-all" => some .dropAll
  | _ => none

def priorityAt? (j : Json) (name : String) : Option Int :=
  (Json.nullable? Json.int32? (j.getD name)).map fun n => (n.map Int32.toInt).getD 0

namespace Query

def toJson : Query → Json
  | name n => .obj [("name", .str n)]
  | labels l => .obj [("labels", l.toJson)]

/-- The query that a value writes: by name if it has one, or else by
labels. -/
def ofJson? (j : Json) : Option Query :=
  match j, j.getD "name" with
  | .obj _, .null =>
    (Json.nullable? Labels.ofJson? (j.getD "labels")).map fun l => labels (l.getD ∅)
  | .obj _, n => n.str?.map name
  | _, _ => none

end Query

namespace Peer

def toJson : Peer → Json
  | networks ips => .obj [("ips", Json.ofList .str ips)]
  | pods query namespaces =>
    .obj
      [("pods", Json.ofOption Query.toJson query),
        ("namespace", Json.ofOption Query.toJson namespaces)]

/-- The peer that a value writes: networks if it lists some, or else pods. -/
def ofJson? (j : Json) : Option Peer :=
  match j, j.getD "ips" with
  | .obj _, .null => do
    return pods (← Json.nullable? Query.ofJson? (j.getD "pods"))
      (← Json.nullable? Query.ofJson? (j.getD "namespace"))
  | .obj _, ips => (Json.list? Json.str? ips).map networks
  | _, _ => none

end Peer

namespace Parent

def toJson (p : Parent) : Json :=
  .obj [("name", .str p.name), ("priority", .int p.priority), ("provider", .str p.dialect.name)]

def ofJson? (j : Json) : Option Parent := do
  return ⟨← j.textAt? "name", ← priorityAt? j "priority",
    ← Dialect.ofJson? (j.getD "provider")⟩

end Parent

namespace Subject

def toJson (s : Subject) : Json :=
  .obj
    [("query", Json.ofOption Query.toJson s.query), ("is_service", .bool s.isService),
      ("namespace", .str s.namespaceName)]

def ofJson? (j : Json) : Option Subject := do
  return ⟨← Json.nullable? Query.ofJson? (j.getD "query"),
    (← Json.nullable? Json.bool? (j.getD "is_service")).getD false,
    ← j.textAt? "namespace"⟩

end Subject

namespace Record

def toJson (r : Record) : Json :=
  .obj
    [("name", .str r.name), ("parent", r.parent.toJson), ("priority", .int r.priority),
      ("creation_time", Json.ofOption (fun t => .str t.text) r.created),
      ("direction", .str r.direction.name), ("subject", r.subject.toJson),
      ("peer", Json.ofOption Peer.toJson r.peer),
      ("peer_key", Json.ofOption (fun p => .str p.key) r.peer),
      ("templates", Json.ofList Rule.toJson r.templates), ("action", .str r.action.name)]

def ofJson? (j : Json) : Option Record := do
  return {
    name := ← j.textAt? "name"
    parent := ← Parent.ofJson? (j.getD "parent")
    priority := ← priorityAt? j "priority"
    created := ← Json.nullable? Timestamp.ofJson? (j.getD "creation_time")
    direction := ← Direction.ofJson? (j.getD "direction")
    subject := ← Subject.ofJson? (j.getD "subject")
    peer := ← Json.nullable? Peer.ofJson? (j.getD "peer")
    templates := (← Json.nullable? (Json.list? Rule.ofJson?) (j.getD "templates")).getD []
    action := ← PolicyAction.ofJson? (j.getD "action") }

end Record

namespace OrderKey

def toJson (k : OrderKey) : Json :=
  .obj
    [("parent_priority", .int k.parentPriority),
      ("creation_time", Json.ofOption (fun t => .str t.text) k.created),
      ("parent", .str k.parent), ("priority", .int k.priority)]

def ofJson? (j : Json) : Option OrderKey := do
  return {
    parentPriority := ← priorityAt? j "parent_priority"
    created := ← Json.nullable? Timestamp.ofJson? (j.getD "creation_time")
    parent := ← j.textAt? "parent"
    priority := ← priorityAt? j "priority" }

end OrderKey

end PodFirewall
