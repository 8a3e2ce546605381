import PodFirewall.PolycubePolicy.Json
import PodFirewall.Proofs.Json.Records

/-!
The JSON form of Polycube network policies, read back. For each record there is
the list of its fields as they are written; that the record is read back is then
shown field by field, down to the records that stand in a field.
-/

namespace PodFirewall.PolycubePolicy

open Json (Reads written)

/-! ### Numbers and kinds -/

theorem int32_reads : Reads Json.int32? int32ToJson where
  back n := by
    have hfits : Json.fitsInt32 n.toInt = true := by
      have hlow := n.le_toInt
      have hhigh := n.toInt_lt
      simp only [Json.fitsInt32, Bool.and_eq_true, decide_eq_true_eq]
      omega
    rw [int32ToJson, Json.int32?, if_pos hfits, Int32.ofInt_toInt]
  null := rfl
  integral n := .int n.toInt

theorem TargetKind.reads : Reads TargetKind.ofJson? fun k => .str k.name :=
  ⟨fun k => by cases k <;> rfl, rfl, fun k => .str k.name⟩

theorem PeerKind.reads : Reads PeerKind.ofJson? fun k => .str k.name :=
  ⟨fun k => by cases k <;> rfl, rfl, fun k => .str k.name⟩

/-! ### Targets and peers -/

def Target.fields (t : Target) : List (String × Option Json) :=
  [("target", some (.str t.kind.name)), ("any", t.any.map .bool),
    ("withName", t.withName.map .str), ("withLabels", t.withLabels.map Labels.toJson)]

theorem Target.reads : Reads Target.ofJson? Target.toJson := by
  refine .record fields (fun t => ?_) (fun _ => rfl) (fun t => ?_) (fun t h => ?_)
    fun t => ?_
  · simp [toJson, written, fields, Json.optional]
  · simp [fields]
  · simp only [Option.bind_eq_bind, Option.pure_def]
    rw [TargetKind.reads.withDefault h (a := t.kind) (by simp [fields]),
      Reads.bool.maybe h (o := t.any) (by simp [fields]),
      Reads.str.maybe h (o := t.withName) (by simp [fields]),
      Reads.labels.maybe h (o := t.withLabels) (by simp [fields])]
    rfl
  · simp only [fields, List.forall_mem_cons]
    exact ⟨TargetKind.reads.integral_set _, Reads.bool.integral_maybe _,
      Reads.str.integral_maybe _, Reads.labels.integral_maybe _, List.forall_mem_nil _⟩

def NamespaceSelector.fields (s : NamespaceSelector) : List (String × Option Json) :=
  [("withNames", if s.withNames.isEmpty then none else some (Json.ofList .str s.withNames)),
    ("withLabels", s.withLabels.map Labels.toJson), ("any", s.any.map .bool)]

theorem NamespaceSelector.reads : Reads NamespaceSelector.ofJson? NamespaceSelector.toJson := by
  refine .record fields (fun s => ?_) (fun _ => rfl) (fun s => ?_) (fun s h => ?_)
    fun s => ?_
  · simp [toJson, written, fields, optionalList]
  · simp [fields]
  · simp only [Option.bind_eq_bind, Option.pure_def]
    rw [Reads.str.optionalList h (l := s.withNames) (by simp [fields]),
      Reads.labels.maybe h (o := s.withLabels) (by simp [fields]),
      Reads.bool.maybe h (o := s.any) (by simp [fields])]
    rfl
  · simp only [fields, List.forall_mem_cons]
    exact ⟨Reads.str.integral_list _, Reads.labels.integral_maybe _, Reads.bool.integral_maybe _,
      List.forall_mem_nil _⟩

def addressFields (list : List String) : List (String × Option Json) :=
  [("list", some (Json.ofList .str list))]

theorem addresses_reads : Reads addressesOfJson? addressesToJson := by
  refine .record addressFields (fun list => ?_) (fun _ => rfl) (fun list => ?_)
    (fun list h => ?_) fun list => ?_
  · simp [addressesToJson, written, addressFields, Json.optional]
  · simp [addressFields]
  · exact Reads.str.list.withDefault h (a := list) (by simp [addressFields]) []
  · simp only [addressFields, List.forall_mem_cons]
    exact ⟨Reads.str.list.integral_set _, List.forall_mem_nil _⟩

def PeerSelector.fields (p : PeerSelector) : List (String × Option Json) :=
  [("peer", some (.str p.kind.name)), ("any", p.any.map .bool), ("withName", p.withName.map .str),
    ("withLabels", p.withLabels.map Labels.toJson), ("withIP", p.withIp.map addressesToJson),
    ("onNamespace", p.onNamespace.map NamespaceSelector.toJson)]

theorem PeerSelector.reads : Reads PeerSelector.ofJson? PeerSelector.toJson := by
  refine .record fields (fun p => ?_) (fun _ => rfl) (fun p => ?_) (fun p h => ?_)
    fun p => ?_
  · simp [toJson, written, fields, Json.optional]
  · simp [fields]
  · simp only [Option.bind_eq_bind, Option.pure_def]
    rw [PeerKind.reads.withDefault h (a := p.kind) (by simp [fields]),
      Reads.bool.maybe h (o := p.any) (by simp [fields]),
      Reads.str.maybe h (o := p.withName) (by simp [fields]),
      Reads.labels.maybe h (o := p.withLabels) (by simp [fields]),
      addresses_reads.maybe h (o := p.withIp) (by simp [fields]),
      NamespaceSelector.reads.maybe h (o := p.onNamespace) (by simp [fields])]
    rfl
  · simp only [fields, List.forall_mem_cons]
    exact ⟨PeerKind.reads.integral_set _, Reads.bool.integral_maybe _,
      Reads.str.integral_maybe _, Reads.labels.integral_maybe _, addresses_reads.integral_maybe _,
      NamespaceSelector.reads.integral_maybe _, List.forall_mem_nil _⟩

/-! ### Rules -/

def Ports.fields (p : Ports) : List (String × Option Json) :=
  [("source", some (int32ToJson p.source)), ("destination", some (int32ToJson p.destination))]

theorem Ports.reads : Reads Ports.ofJson? Ports.toJson := by
  refine .record fields (fun p => ?_) (fun _ => rfl) (fun p => ?_) (fun p h => ?_)
    fun p => ?_
  · simp [toJson, written, fields, Json.optional]
  · simp [fields]
  · simp only [Option.bind_eq_bind, Option.pure_def]
    rw [int32_reads.withDefault h (a := p.source) (by simp [fields]),
      int32_reads.withDefault h (a := p.destination) (by simp [fields])]
    rfl
  · simp only [fields, List.forall_mem_cons]
    exact ⟨int32_reads.integral_set _, int32_reads.integral_set _, List.forall_mem_nil _⟩

def ProtocolEntry.fields (e : ProtocolEntry) : List (String × Option Json) :=
  [("ports", some e.ports.toJson), ("protocol", some (.str e.protocol))]

theorem ProtocolEntry.reads : Reads ProtocolEntry.ofJson? ProtocolEntry.toJson := by
  refine .record fields (fun e => ?_) (fun _ => rfl) (fun e => ?_) (fun e h => ?_)
    fun e => ?_
  · simp [toJson, written, fields, Json.optional]
  · simp [fields]
  · simp only [Option.bind_eq_bind, Option.pure_def]
    rw [Ports.reads.withDefault h (a := e.ports) (by simp [fields]),
      Reads.str.withDefault h (a := e.protocol) (by simp [fields])]
    rfl
  · simp only [fields, List.forall_mem_cons]
    exact ⟨Ports.reads.integral_set _, Reads.str.integral_set _, List.forall_mem_nil _⟩

def TrafficRule.fields (r : TrafficRule) : List (String × Option Json) :=
  [("from", some r.peer.toJson),
    ("protocols",
      if r.protocols.isEmpty then none else some (Json.ofList ProtocolEntry.toJson r.protocols)),
    ("action", r.action.map .str), ("description", r.description.map .str)]

theorem TrafficRule.reads : Reads TrafficRule.ofJson? TrafficRule.toJson := by
  refine .record fields (fun r => ?_) (fun _ => rfl) (fun r => ?_) (fun r h => ?_)
    fun r => ?_
  · simp [toJson, written, fields, optionalList, Json.optional]
  · simp [fields]
  · simp only [Option.bind_eq_bind, Option.pure_def]
    rw [PeerSelector.reads.withDefault h (a := r.peer) (by simp [fields]),
      ProtocolEntry.reads.optionalList h (l := r.protocols) (by simp [fields]),
      Reads.str.maybe h (o := r.action) (by simp [fields]),
      Reads.str.maybe h (o := r.description) (by simp [fields])]
    rfl
  · simp only [fields, List.forall_mem_cons]
    exact ⟨PeerSelector.reads.integral_set _, ProtocolEntry.reads.integral_list _,
      Reads.str.integral_maybe _, Reads.str.integral_maybe _, List.forall_mem_nil _⟩

def EgressRule.fields (r : EgressRule) : List (String × Option Json) :=
  [("to", some r.peer.toJson),
    ("protocols",
      if r.protocols.isEmpty then none else some (Json.ofList ProtocolEntry.toJson r.protocols)),
    ("tcpflags", if r.tcpFlags.isEmpty then none else some (Json.ofList .str r.tcpFlags)),
    ("action", r.action.map .str), ("description", r.description.map .str)]

theorem EgressRule.reads : Reads EgressRule.ofJson? EgressRule.toJson := by
  refine .record fields (fun r => ?_) (fun _ => rfl) (fun r => ?_) (fun r h => ?_)
    fun r => ?_
  · simp [toJson, written, fields, optionalList, Json.optional]
  · simp [fields]
  · simp only [Option.bind_eq_bind, Option.pure_def]
    rw [PeerSelector.reads.withDefault h (a := r.peer) (by simp [fields]),
      ProtocolEntry.reads.optionalList h (l := r.protocols) (by simp [fields]),
      Reads.str.optionalList h (l := r.tcpFlags) (by simp [fields]),
      Reads.str.maybe h (o := r.action) (by simp [fields]),
      Reads.str.maybe h (o := r.description) (by simp [fields])]
    rfl
  · simp only [fields, List.forall_mem_cons]
    exact ⟨PeerSelector.reads.integral_set _, ProtocolEntry.reads.integral_list _,
      Reads.str.integral_list _, Reads.str.integral_maybe _, Reads.str.integral_maybe _,
      List.forall_mem_nil _⟩

/-! ### Policies -/

def IngressRules.fields (s : IngressRules) : List (String × Option Json) :=
  [("dropAll", s.dropAll.map .bool), ("allowAll", s.allowAll.map .bool),
    ("preventDirectAccess", s.preventDirectAccess.map .bool),
    ("rules", s.rules.map (Json.ofList TrafficRule.toJson))]

theorem IngressRules.reads : Reads IngressRules.ofJson? IngressRules.toJson := by
  refine .record fields (fun s => ?_) (fun _ => rfl) (fun s => ?_) (fun s h => ?_)
    fun s => ?_
  · simp [toJson, written, fields]
  · simp [fields]
  · simp only [Option.bind_eq_bind, Option.pure_def]
    rw [Reads.bool.maybe h (o := s.dropAll) (by simp [fields]),
      Reads.bool.maybe h (o := s.allowAll) (by simp [fields]),
      Reads.bool.maybe h (o := s.preventDirectAccess) (by simp [fields]),
      TrafficRule.reads.list.maybe h (o := s.rules) (by simp [fields])]
    rfl
  · simp only [fields, List.forall_mem_cons]
    exact ⟨Reads.bool.integral_maybe _, Reads.bool.integral_maybe _, Reads.bool.integral_maybe _,
      TrafficRule.reads.list.integral_maybe _, List.forall_mem_nil _⟩

def egressFields (s : EgressRules) : List (String × Option Json) :=
  [("dropAll", s.dropAll.map .bool), ("allowAll", s.allowAll.map .bool),
    ("rules", s.rules.map (Json.ofList EgressRule.toJson))]

theorem egress_reads : Reads egressOfJson? egressToJson := by
  refine .record egressFields (fun s => ?_) (fun _ => rfl) (fun s => ?_)
    (fun s h => ?_) fun s => ?_
  · simp [egressToJson, written, egressFields]
  · simp [egressFields]
  · simp only [Option.bind_eq_bind, Option.pure_def]
    rw [Reads.bool.maybe h (o := s.dropAll) (by simp [egressFields]),
      Reads.bool.maybe h (o := s.allowAll) (by simp [egressFields]),
      EgressRule.reads.list.maybe h (o := s.rules) (by simp [egressFields])]
    rfl
  · simp only [egressFields, List.forall_mem_cons]
    exact ⟨Reads.bool.integral_maybe _, Reads.bool.integral_maybe _,
      EgressRule.reads.list.integral_maybe _, List.forall_mem_nil _⟩

def Spec.fields (s : Spec) : List (String × Option Json) :=
  [("description", s.description.map .str), ("ingressRules", some s.ingress.toJson),
    ("egressRules", some (egressToJson s.egress))]

theorem Spec.reads : Reads Spec.ofJson? Spec.toJson := by
  refine .record fields (fun s => ?_) (fun _ => rfl) (fun s => ?_) (fun s h => ?_)
    fun s => ?_
  · simp [toJson, written, fields, Json.optional]
  · simp [fields]
  · simp only [Option.bind_eq_bind, Option.pure_def]
    rw [Reads.str.maybe h (o := s.description) (by simp [fields]),
      IngressRules.reads.withDefault h (a := s.ingress) (by simp [fields]),
      egress_reads.withDefault h (a := s.egress) (by simp [fields])]
    rfl
  · simp only [fields, List.forall_mem_cons]
    exact ⟨Reads.str.integral_maybe _, IngressRules.reads.integral_set _,
      egress_reads.integral_set _, List.forall_mem_nil _⟩

def Body.fields (metadata : Json) (b : Body) : List (String × Option Json) :=
  [("metadata", some metadata), ("applyTo", some b.applyTo.toJson),
    ("priority", b.priority.map int32ToJson), ("spec", some b.spec.toJson)]

def Body.toJsonWith (metadata : Json) (b : Body) : Json :=
  match b.toJson with
  | .obj members => .obj (("metadata", metadata) :: members)
  | j => j

theorem Body.toJsonWith_eq (metadata : Json) (b : Body) :
    b.toJsonWith metadata = .obj (written (b.fields metadata)) := by
  simp [toJsonWith, toJson, written, fields, Json.optional]

/-- A policy is read back with whatever its metadata read as. -/
theorem ofJson?_toJsonWith {j : Json} {metadata : Kube.Metadata}
    (hmetadata : Kube.Metadata.ofJson? j = some metadata) (b : Body) :
    ofJson? (b.toJsonWith j) = some ⟨metadata, b⟩ := by
  have h : ((b.fields j).map (·.1)).Nodup := by simp [Body.fields]
  have hbody : Body.ofFields? (written (b.fields j)) = some b := by
    simp only [Body.ofFields?, Option.bind_eq_bind, Option.pure_def]
    rw [Target.reads.withDefault h (a := b.applyTo) (by simp [Body.fields]),
      int32_reads.maybe h (o := b.priority) (by simp [Body.fields]),
      Spec.reads.withDefault h (a := b.spec) (by simp [Body.fields])]
    rfl
  have hrequired :
      Json.required (written (b.fields j)) "metadata" Kube.Metadata.ofJson? = some metadata := by
    rw [Json.required, Json.lookup_written h (j := some j) (by simp [Body.fields])]
    exact hmetadata
  rw [Body.toJsonWith_eq, ofJson?, Json.fields?_written h]
  simp only [Option.bind_eq_bind, Option.bind_some, Option.pure_def]
  rw [hrequired, hbody]
  rfl

theorem integral_toJsonWith {j : Json} (h : j.Integral) (b : Body) : (b.toJsonWith j).Integral := by
  have hmetadata : ∀ j' ∈ some j, j'.Integral := by
    rintro _ ⟨⟩
    exact h
  rw [Body.toJsonWith_eq]
  refine .written ?_
  simp only [Body.fields, List.forall_mem_cons]
  exact ⟨hmetadata, Target.reads.integral_set _, int32_reads.integral_maybe _,
    Spec.reads.integral_set _, List.forall_mem_nil _⟩

end PodFirewall.PolycubePolicy
