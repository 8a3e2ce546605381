import Mathlib.Data.List.Nodup
import PodFirewall.Proofs.NetworkPolicy.Permission
import PodFirewall.Proofs.PolycubePolicy.ServicePorts
import PodFirewall.Proofs.Resolve.Twins

/-!
Rules that come twice. The rules for a peer are sorted out when a record is
resolved, but the templates of a record for all packets are taken as they are.
There is one template for each of its ports, and different ports make different
templates, so the rules of such a record repeat just where its ports do.
-/

namespace PodFirewall

theorem Protocol.name_injective : Function.Injective Protocol.name := by
  intro p q h
  cases p <;> cases q <;> first | rfl | exact absurd h (by decide)

namespace Rule

theorem sameMatch_self (r : Rule) : r.sameMatch r = true := by simp [sameMatch]

theorem withPorts_injective (r : Rule) : Function.Injective r.withPorts := by
  rintro ⟨protocol, sport, dport⟩ ⟨protocol', sport', dport'⟩ h
  simp only [withPorts, mk.injEq, true_and, and_true] at h
  obtain ⟨hprotocol, rfl, rfl⟩ := h
  rw [Option.map_injective Protocol.name_injective hprotocol]

/-- Different ports make different templates. -/
theorem nodup_templates_iff (action : RuleAction) (ports : List PortMatch) :
    (templates action ports).Nodup ↔ ports.Nodup := by
  rw [templates_eq]
  split
  · rename_i hnone
    rw [List.isEmpty_iff.1 hnone]
    exact iff_of_true (List.nodup_singleton _) List.nodup_nil
  · exact List.nodup_map_iff (withPorts_injective _)

/-- Rules without numbers and descriptions say different things exactly if they are
different. -/
theorem Plain.noTwins_iff {rules : List Rule} (hplain : ∀ r ∈ rules, r.Plain) :
    (rules.Pairwise fun a b => a.sameMatch b = false) ↔ rules.Nodup := by
  refine ⟨fun h => h.imp fun hsame heq => ?_, Plain.noTwins hplain⟩
  rw [heq, sameMatch_self] at hsame
  cases hsame

end Rule

/-- The ports that a record for all packets is made of: those of the rule without
peers that it comes from, or those of the service that its policy is for. -/
inductive Policy.SpreadOver : Policy → Option Service → Record → List PortMatch → Prop
  | rule {p : NetworkPolicy} {service : Option Service} {record : Record} {i number : Nat}
      {r : NetworkPolicy.PolicyRule} (haction : record.action = .forwardAll)
      (hname : record.name =
        Record.nameAt .k8s (p.metadata.name.getD "") record.direction i number)
      (hrule : (p.body.rules record.direction)[i]? = some r) :
      SpreadOver (.k8s p) service record (NetworkPolicy.portMatches r.ports)
  | service {p : PolycubePolicy} {s : Service} {record : Record}
      (hkind : p.body.applyTo.kind = .service)
      (hall : (p.body.spec.rules record.direction).dropAll = true ∨
        (p.body.spec.rules record.direction).allowAll = true) :
      SpreadOver (.pcn p) (some s) record s.podPorts

/-! ### The records of a policy -/

/-- A record of a standard policy lets all packets through and has the templates of
its rule, or it is for a peer or has no template. -/
theorem NetworkPolicy.record_cases {p : NetworkPolicy} {rs : List Record} {record : Record}
    (h : NetworkPolicy.records p = .ok rs) (hrecord : record ∈ rs) :
    record.action ≠ .forwardAll ∧ (record.action.isAll = true → record.templates = []) ∨
      record.action = .forwardAll ∧ ∃ i number r,
        record.name =
          Record.nameAt .k8s (p.metadata.name.getD "") record.direction i number ∧
        (p.body.rules record.direction)[i]? = some r ∧
        record.templates = Rule.templates .forward (portMatches r.ports) := by
  obtain ⟨head, d, hhead, rfl | ⟨i, number, r, e, hr, he, rfl⟩⟩ := mem_records h hrecord
  · exact .inl ⟨nofun, fun _ => rfl⟩
  · rcases mem_entries he with rfl | ⟨action, peer, rfl⟩
    · have hname : head.parent.name = p.metadata.name.getD "" := hhead.name
      have hdialect : head.parent.dialect = .k8s := hhead.dialect
      refine .inr ⟨rfl, i, number, r, ?_, hr, rfl⟩
      rw [← hname, ← hdialect]
      rfl
    · cases action <;> exact .inl ⟨nofun, nofun⟩

/-- A record of a policy for pods or for a service is for all packets, as its
direction says, and has the templates of the default ports, or it is for a peer or
has no template. -/
theorem PolycubePolicy.record_cases {p : PolycubePolicy} {service : Option Service}
    {rs : List Record} {record : Record} (h : PolycubePolicy.records p service = .ok rs)
    (hrecord : record ∈ rs) :
    ((p.body.spec.rules record.direction).dropAll = false ∧
        (p.body.spec.rules record.direction).allowAll = false) ∧
        (record.action.isAll = true → record.templates = []) ∨
      ((p.body.spec.rules record.direction).dropAll = true ∨
        (p.body.spec.rules record.direction).allowAll = true) ∧
        record.action.isAll = true ∧ ∃ action ns found, subject p ns service = .ok found ∧
          record.templates = Rule.templates action found.2 := by
  obtain ⟨ns, found, d, hfound, hmem⟩ := mem_records h hrecord
  rcases directionRecords_cases hmem with
    ⟨hdrop, rfl⟩ | ⟨hallow, rfl⟩ | ⟨hdrop, hallow, rfl | ⟨i, number, r, e, hr, he, rfl⟩⟩
  · exact .inr ⟨.inl hdrop, rfl, .drop, ns, found, hfound, rfl⟩
  · exact .inr ⟨.inr hallow, rfl, .forward, ns, found, hfound, rfl⟩
  · exact .inl ⟨⟨hdrop, hallow⟩, fun _ => rfl⟩
  · obtain ⟨_, action, peer, -, -, rfl⟩ := mem_entries he
    refine .inl ⟨⟨hdrop, hallow⟩, ?_⟩
    cases action <;> exact nofun

/-- The templates of a record for all packets repeat exactly if its ports do. -/
theorem NetworkPolicy.nodup_templates_iff {p : NetworkPolicy} {service : Option Service}
    {rs : List Record} {record : Record} (h : NetworkPolicy.records p = .ok rs)
    (hrecord : record ∈ rs) (hall : record.action.isAll = true) :
    record.templates.Nodup ↔
      ∀ ports, (Policy.k8s p).SpreadOver service record ports → ports.Nodup := by
  rcases record_cases h hrecord with
    ⟨haction, hnone⟩ | ⟨haction, i, number, r, hname, hr, htemplates⟩
  · rw [hnone hall]
    refine iff_of_true List.nodup_nil fun ports hspread => ?_
    cases hspread with
    | rule hforward _ _ => exact absurd hforward haction
  · rw [htemplates, Rule.nodup_templates_iff]
    refine ⟨fun hnodup ports hspread => ?_, fun hports => hports _ (.rule haction hname hr)⟩
    cases hspread with
    | rule _ hname' hr' =>
      -- the name of a record tells which rule it comes from
      obtain ⟨-, -, -, rfl, -⟩ := Record.nameAt_inj (hname.symm.trans hname')
      obtain rfl := Option.some.inj (hr.symm.trans hr')
      exact hnodup

@[inherit_doc NetworkPolicy.nodup_templates_iff]
theorem PolycubePolicy.nodup_templates_iff {p : PolycubePolicy} {service : Option Service}
    {rs : List Record} {record : Record} (h : PolycubePolicy.records p service = .ok rs)
    (hrecord : record ∈ rs) (hall : record.action.isAll = true) :
    record.templates.Nodup ↔
      ∀ ports, (Policy.pcn p).SpreadOver service record ports → ports.Nodup := by
  rcases record_cases h hrecord with
    ⟨⟨hdrop, hallow⟩, hnone⟩ | ⟨heither, -, action, ns, found, hfound, htemplates⟩
  · rw [hnone hall]
    refine iff_of_true List.nodup_nil fun ports hspread => ?_
    cases hspread with
    | service _ heither =>
      rw [hdrop, hallow] at heither
      exact heither.elim nofun nofun
  · rw [htemplates, Rule.nodup_templates_iff]
    rcases subject_cases hfound with ⟨hpod, query, rfl⟩ | ⟨hkind, s, rfl, -, rfl⟩
    · refine iff_of_true List.nodup_nil fun ports hspread => ?_
      cases hspread with
      | service hkind _ => exact absurd (hpod.symm.trans hkind) nofun
    · refine ⟨fun hnodup ports hspread => ?_, fun hnodup => hnodup _ (.service hkind heither)⟩
      cases hspread with
      | service _ _ => exact hnodup

namespace Policy

variable {p : Policy} {service : Option Service} {rs : List Record} {record : Record}

/-- A record that is spread over ports is for all packets. -/
theorem SpreadOver.isAll {ports : List PortMatch} (hspread : p.SpreadOver service record ports)
    (h : p.records service = .ok rs) (hrecord : record ∈ rs) : record.action.isAll = true := by
  cases hspread with
  | rule haction _ _ =>
    rw [haction]
    rfl
  | service _ heither =>
    rcases PolycubePolicy.record_cases h hrecord with ⟨⟨hdrop, hallow⟩, -⟩ | ⟨-, hall, -⟩
    · rw [hdrop, hallow] at heither
      exact heither.elim nofun nofun
    · exact hall

/-- The rules that a record of a policy resolves to are different, and say different
things, exactly if the ports that it is spread over are different: those of a rule
without peers, or those of the service of a policy for all packets. A record for a
peer is not spread over ports, and its rules never repeat. -/
theorem resolve_nodup_iff {resolver : Resolver} {rules : List Rule}
    (h : p.records service = .ok rs) (hrecord : record ∈ rs)
    (hok : resolver.resolve record = .ok rules) :
    (rules.Nodup ↔ ∀ ports, p.SpreadOver service record ports → ports.Nodup) ∧
      ((rules.Pairwise fun a b => a.sameMatch b = false) ↔ rules.Nodup) := by
  refine ⟨?_, Rule.Plain.noTwins_iff (Resolver.plain_resolve (unmarked_records h _ hrecord) hok)⟩
  rcases Resolver.resolve_cases hok with ⟨hall, rfl⟩ | ⟨hpeer, hnodup⟩
  · cases p with
    | k8s p => exact NetworkPolicy.nodup_templates_iff h hrecord hall
    | pcn p => exact PolycubePolicy.nodup_templates_iff h hrecord hall
  · refine iff_of_true hnodup fun ports hspread => ?_
    exact absurd (hspread.isAll h hrecord) (by rw [hpeer]; decide)

def opened (ports : List NetworkPolicy.Port) : Policy :=
  .k8s (NetworkPolicy.webPolicy [⟨[], ports⟩])

def openedRecord (templates : List Rule) : Record :=
  Record.ofEntry ⟨⟨"web", defaultPriority, .k8s⟩, none, ⟨none, false, "n"⟩⟩ .incoming 0 0
    ⟨.forwardAll, none, templates⟩

/-- The same number for two protocols makes two rules. -/
theorem resolve_nodup_iff_of_two_protocols :
    let ports := [⟨some "TCP", some (.number 80), none⟩, ⟨some "UDP", some (.number 80), none⟩]
    let record := openedRecord (Rule.templates .forward (NetworkPolicy.portMatches ports))
    (opened ports).records none = .ok [record] ∧
      Resolver.resolve ⟨default, none⟩ record = .ok record.templates ∧
      record.templates.Nodup := by
  intro ports record
  have hrecords : (opened ports).records none = .ok [record] := by decide +kernel
  have hok : Resolver.resolve ⟨default, none⟩ record = .ok record.templates := rfl
  refine ⟨hrecords, hok, (resolve_nodup_iff hrecords List.mem_cons_self hok).1.2
    fun found hspread => ?_⟩
  cases hspread with
  | @rule _ _ _ i number r _ hname hrule =>
    have hplace : record.name = Record.nameAt .k8s "web" .incoming 0 0 := rfl
    obtain ⟨-, -, -, rfl, -⟩ := Record.nameAt_inj (hplace.symm.trans hname)
    obtain rfl := Option.some.inj hrule
    decide +kernel

/-- Rules may repeat: a rule without peers that lists a port twice makes the same
rule twice. -/
theorem rule_repeated :
    ¬∀ (p : Policy) (service : Option Service) (rs : List Record) (record : Record)
      (resolver : Resolver) (rules : List Rule), p.records service = .ok rs → record ∈ rs →
      resolver.resolve record = .ok rules → rules.Nodup := by
  intro h
  let port : NetworkPolicy.Port := ⟨some "TCP", some (.number 80), none⟩
  let t : Rule := (Rule.opening .forward).withPorts ⟨some .tcp, none, some 80⟩
  have hrecords : (opened [port, port]).records none = .ok [openedRecord [t, t]] := by
    decide +kernel
  have hnodup := h _ none _ _ ⟨default, none⟩ _ hrecords List.mem_cons_self rfl
  exact (List.nodup_cons.1 hnodup).1 List.mem_cons_self

end Policy

end PodFirewall
