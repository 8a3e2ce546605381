import PodFirewall.Backend.Rest
import PodFirewall.Proofs.PolycubePolicy.WireForm

/-!
What was written comes back. Policies and rules are read back from their JSON
forms and from the texts of these, and a listing of rules that were appended is
understood as these rules.
-/

namespace PodFirewall

open Json (Reads written)

namespace Rule

theorem action_reads : Reads RuleAction.ofJson? RuleAction.toJson :=
  ⟨fun a => by cases a <;> rfl, rfl, fun a => .str a.name⟩

theorem conntrack_reads : Reads Conntrack.ofJson? fun c => .str c.name :=
  ⟨fun c => by cases c <;> rfl, rfl, fun c => .str c.name⟩

theorem port_reads : Reads Json.uint16? portToJson where
  back p := by
    have hbelow : Json.natBelow? UInt16.size (portToJson p) = some p.toNat := if_pos p.toNat_lt
    rw [Json.uint16?, hbelow, Option.map_some, UInt16.ofNat_toNat]
  null := rfl
  integral p := .int p.toNat

theorem natBelow?_idToJson {id : Nat} (h : id < idCount) :
    Json.natBelow? idCount (idToJson id) = some id := by
  rw [idToJson, Nat.mod_eq_of_lt h]
  exact if_pos h

def fields (r : Rule) : List (String × Option Json) :=
  [("id", some (idToJson r.id)), ("src", r.src.map .str), ("dst", r.dst.map .str),
    ("l4proto", r.protocol.map .str), ("sport", r.sport.map portToJson),
    ("dport", r.dport.map portToJson), ("action", some r.action.toJson),
    ("conntrack", r.conntrack.map fun c => .str c.name), ("description", r.description.map .str)]

theorem toJson_eq (r : Rule) : r.toJson = .obj (written r.fields) := by
  simp [toJson, written, fields, Json.optional]

theorem ofJson?_toJson {r : Rule} (hid : r.id < idCount) : ofJson? r.toJson = some r := by
  have h : (r.fields.map (·.1)).Nodup := by simp [fields]
  rw [toJson_eq, ofJson?, Json.fields?_written h]
  simp only [Option.bind_eq_bind, Option.bind_some, Option.pure_def]
  rw [Json.withDefault_written h (j := idToJson r.id) (by simp [fields]), natBelow?_idToJson hid,
    Reads.str.maybe h (o := r.src) (by simp [fields]),
    Reads.str.maybe h (o := r.dst) (by simp [fields]),
    Reads.str.maybe h (o := r.protocol) (by simp [fields]),
    port_reads.maybe h (o := r.sport) (by simp [fields]),
    port_reads.maybe h (o := r.dport) (by simp [fields]),
    action_reads.withDefault h (a := r.action) (by simp [fields]),
    conntrack_reads.maybe h (o := r.conntrack) (by simp [fields]),
    Reads.str.maybe h (o := r.description) (by simp [fields])]
  rfl

theorem integral_toJson (r : Rule) : r.toJson.Integral := by
  rw [toJson_eq]
  refine .written ?_
  simp only [fields, List.forall_mem_cons]
  refine ⟨?_, Reads.str.integral_maybe _, Reads.str.integral_maybe _, Reads.str.integral_maybe _,
    port_reads.integral_maybe _, port_reads.integral_maybe _, action_reads.integral_set _,
    conntrack_reads.integral_maybe _, Reads.str.integral_maybe _, List.forall_mem_nil _⟩
  rintro _ ⟨⟩
  exact .int _

end Rule

namespace Call

/-- The text of a list of rules is understood as a listing of these rules. -/
theorem listedRules?_render {rules : List Rule} (h : ∀ r ∈ rules, r.id < Rule.idCount) :
    listedRules? (Json.ofList Rule.toJson rules).render = some rules := by
  have hintegral : (Json.ofList Rule.toJson rules).Integral :=
    .arr (List.forall_mem_map.2 fun r _ => r.integral_toJson)
  have hfilled :
      (Text.skipBlanks (Json.ofList Rule.toJson rules).render.toList).isEmpty = false := by
    rw [Json.ofList, Json.render, String.toList_append, String.toList_append]
    rfl
  rw [listedRules?, hfilled, hintegral.parse?_render]
  exact Json.list?_ofList fun r hr => Rule.ofJson?_toJson (h r hr)

theorem exchange_read {name text : String} {c : Chain} {rules : List Rule} {code : Nat}
    {answers : List (Option Response)} (hcode : 200 ≤ code ∧ code < 300)
    (h : listedRules? text = some rules) :
    ((Call.read c).exchange name (.serving (some ⟨code, text⟩ :: answers))).1 =
      .ok (.rules rules) := by
  have hsucceeded : Response.succeeded ⟨code, text⟩ = true := by
    simp [Response.succeeded, hcode.1, hcode.2]
  have hunderstand (r : Request) :
      (Call.read c).understand r ⟨code, text⟩ = .ok (.rules rules) := by
    simp only [understand, hsucceeded, if_true, h]
  simp only [exchange, requests, sendAll, Connection.answer, hunderstand]

end Call

/-- Policies and rules are read back as they were written, from the values and
from the texts of these: a policy with whatever its metadata read as, a rule with
its id. A listing with the text that an append sends is understood as the rules
of the append. -/
theorem wire_forms_read_back :
    (∀ (j : Json) (metadata : Kube.Metadata) (b : PolycubePolicy.Body),
      Kube.Metadata.ofJson? j = some metadata →
        PolycubePolicy.ofJson? (b.toJsonWith j) = some ⟨metadata, b⟩ ∧
        (j.Integral →
          (Json.parse? (b.toJsonWith j).render).bind PolycubePolicy.ofJson? =
            some ⟨metadata, b⟩)) ∧
    (∀ r : Rule, r.id < Rule.idCount →
      Rule.ofJson? r.toJson = some r ∧
        (Json.parse? r.toJson.render).bind Rule.ofJson? = some r) ∧
    (∀ (name : String) (c : Chain) (rules : List Rule), (∀ r ∈ rules, r.id < Rule.idCount) →
      (∀ q ∈ (Call.append c rules).requests name,
        q.body = some (Json.ofList Rule.toJson rules)) ∧
      ∀ code answers, 200 ≤ code ∧ code < 300 →
        ((Call.read c).exchange name (.serving
          (some ⟨code, (Json.ofList Rule.toJson rules).render⟩ :: answers))).1 =
            .ok (.rules rules)) := by
  refine ⟨fun j metadata b h => ⟨PolycubePolicy.ofJson?_toJsonWith h b, fun hj => ?_⟩,
    fun r hr => ⟨Rule.ofJson?_toJson hr, ?_⟩,
    fun name c rules h => ⟨?_, fun code answers hcode =>
      Call.exchange_read hcode (Call.listedRules?_render h)⟩⟩
  · rw [(PolycubePolicy.integral_toJsonWith hj b).parse?_render, Option.bind_some,
      PolycubePolicy.ofJson?_toJsonWith h b]
  · rw [r.integral_toJson.parse?_render, Option.bind_some, Rule.ofJson?_toJson hr]
  · cases rules with
    | nil => exact List.forall_mem_nil _
    | cons r rest => exact List.forall_mem_singleton.2 rfl

/-- A policy for a target of no known kind, with numbers below 0 and what is set
though it is empty; and a listing of a rule and of the entry behind it. -/
theorem wire_forms_read_back_unknown :
    let j := Json.obj [("name", .str "p")]
    let metadata : Kube.Metadata := ⟨some "p", none, ∅, none, none, false⟩
    let body : PolycubePolicy.Body :=
      { applyTo := ⟨.unknown, none, some "", some ∅⟩
        priority := some (-1)
        spec :=
          { description := some "\x08"
            ingress := ⟨⟨none, some true, some []⟩, none⟩
            egress := ⟨none, none, some
              [⟨⟨⟨.world, none, none, none, some [], some ⟨[], none, none⟩⟩,
                [⟨⟨-1, 80⟩, "tcp"⟩], some "pass", none⟩, []⟩]⟩ } }
    let r := { Rule.blank with id := 7, dport := some 80 }
    let rules := [Rule.blank, Rule.defaultEntry 1 .forward]
    Kube.Metadata.ofJson? j = some metadata ∧ j.Integral ∧
      (Json.parse? (body.toJsonWith j).render).bind PolycubePolicy.ofJson? =
        some ⟨metadata, body⟩ ∧
      r.id < Rule.idCount ∧ Rule.ofJson? r.toJson = some r ∧
      (∀ r ∈ rules, r.id < Rule.idCount) ∧
      ((Call.read .ingress).exchange "fw" (.serving
        [some ⟨200, (Json.ofList Rule.toJson rules).render⟩])).1 = .ok (.rules rules) := by
  intro j metadata body r rules
  obtain ⟨hpolicy, hrule, hlisting⟩ := wire_forms_read_back
  have hmetadata : Kube.Metadata.ofJson? j = some metadata := by rfl
  have hintegral : j.Integral := .obj (List.forall_mem_singleton.2 (.str "p"))
  have hid : r.id < Rule.idCount := by decide
  have hids : ∀ r ∈ rules, r.id < Rule.idCount := by decide
  exact ⟨hmetadata, hintegral, (hpolicy j metadata body hmetadata).2 hintegral, hid,
    (hrule r hid).1, hids, (hlisting "fw" .ingress rules hids).2 200 [] (by decide)⟩

end PodFirewall
