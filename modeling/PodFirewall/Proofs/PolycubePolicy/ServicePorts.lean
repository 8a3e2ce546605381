import PodFirewall.Proofs.PolycubePolicy.Ports

/-!
The ports of a policy for a service. Where a rule lists no protocol, and in the
record that lets all packets through, the ports of the service stand in: each one
for TCP or UDP becomes a template. If the service has none for TCP or UDP, then
the list of these ports is empty, and an empty list stands for all packets: the
only template is for every protocol and every port.
-/

namespace PodFirewall

namespace ServicePort

def supported (port : ServicePort) : Bool :=
  Protocol.ofName? port.protocol == some .tcp || Protocol.ofName? port.protocol == some .udp

/-- Whether a template is for the port of the pods that a port of a service leads
to, which is its own if their port is named or missing. -/
structure Shapes (port : ServicePort) (t : Rule) : Prop where
  protocol : ∃ p : Protocol, p ≠ .icmp ∧ port.protocol.map Char.toUpper = p.name ∧
    t.protocol = some p.name
  source : t.sport = none
  destination : t.dport = some (port.targetPort.getD port.port)

def podMatch? (port : ServicePort) : Option PortMatch :=
  match Protocol.ofName? port.protocol with
  | some .tcp => some ⟨some .tcp, none, some port.target⟩
  | some .udp => some ⟨some .udp, none, some port.target⟩
  | _ => none

theorem podMatch?_cases (port : ServicePort) :
    port.supported = false ∧ port.podMatch? = none ∨
      port.supported = true ∧ ∃ p : Protocol, p ≠ .icmp ∧ Protocol.ofName? port.protocol = some p ∧
        port.podMatch? = some ⟨some p, none, some port.target⟩ := by
  unfold supported podMatch?
  rcases hname : Protocol.ofName? port.protocol with _ | p
  · exact .inl ⟨rfl, rfl⟩
  · cases p with
    | tcp => exact .inr ⟨rfl, .tcp, by decide, rfl, rfl⟩
    | udp => exact .inr ⟨rfl, .udp, by decide, rfl, rfl⟩
    | icmp => exact .inl ⟨rfl, rfl⟩

theorem supported_eq (port : ServicePort) : port.supported = port.podMatch?.isSome := by
  rcases port.podMatch?_cases with ⟨hsupported, hmatch⟩ | ⟨hsupported, p, -, -, hmatch⟩
  · rw [hsupported, hmatch]
    rfl
  · rw [hsupported, hmatch]
    rfl

theorem shapes_withPorts {port : ServicePort} {m : PortMatch} (h : port.podMatch? = some m)
    (r : Rule) : port.Shapes (r.withPorts m) := by
  rcases port.podMatch?_cases with ⟨-, hmatch⟩ | ⟨-, p, hp, hname, hmatch⟩
  · rw [hmatch] at h
    cases h
  · rw [hmatch] at h
    obtain rfl := Option.some.inj h
    exact ⟨⟨p, hp, Protocol.ofName?_eq_some_iff.1 hname, rfl⟩, rfl, rfl⟩

end ServicePort

/-- Without ports for TCP or UDP the ports of the pods make one template for all
packets, else one for each of them. -/
theorem Service.templates_podPorts (s : Service) (action : RuleAction) :
    (s.ports.any (·.supported) = true ∧
        List.Forall₂ ServicePort.Shapes (s.ports.filter (·.supported))
          (Rule.templates action s.podPorts)) ∨
      s.ports.any (·.supported) = false ∧
        Rule.templates action s.podPorts = [Rule.opening action] := by
  have hports : s.podPorts = s.ports.filterMap ServicePort.podMatch? := rfl
  have hshapes := forall₂_filterMap ServicePort.supported_eq
    (fun _ _ h => ServicePort.shapes_withPorts h (Rule.opening action)) s.ports
  rw [← hports] at hshapes
  have hempty : s.podPorts.isEmpty = !s.ports.any (·.supported) := by
    have hlength := hshapes.length_eq
    rw [List.length_map] at hlength
    rw [Bool.eq_iff_iff, List.isEmpty_iff_length_eq_zero, ← hlength, List.length_eq_zero_iff,
      List.filter_eq_nil_iff, Bool.not_eq_true', List.any_eq_false]
  rw [Rule.templates_eq, hempty]
  cases hany : s.ports.any (·.supported) with
  | false => exact .inr ⟨rfl, rfl⟩
  | true => exact .inl ⟨rfl, hshapes⟩

namespace PolycubePolicy

/-- Whether the ports of a service stand in for those of a record: it lets all
packets through, or it comes from a rule that lists no protocol. -/
def StandsIn (p : PolycubePolicy) (record : Record) : Prop :=
  record.action = .forwardAll ∨
    ∃ i number r,
      record.name =
        Record.nameAt .pcn (p.metadata.name.getD "") record.direction i number ∧
      (p.body.spec.rules record.direction).rules[i]? = some r ∧ r.protocols = []

/-- The templates of a rule that lists no protocol are those for the default
ports. -/
theorem templates_of_unlisted {r : TrafficRule} {ns : String} {servicePorts : List PortMatch}
    {e : Record.Entry} (he : e ∈ r.entries ns servicePorts) (hunlisted : r.protocols = []) :
    ∃ action, e.action = .ofRule action ∧ e.templates = Rule.templates action servicePorts := by
  obtain ⟨ports, action, peer, hports, -, rfl⟩ := mem_entries he
  rw [TrafficRule.ports?, hunlisted] at hports
  obtain rfl := Option.some.inj hports
  exact ⟨action, rfl, rfl⟩

/-- A record of a policy for a service that lets packets through, all of them or
those of a rule that lists no protocol, has one template for each port of the
service for TCP or UDP, in order, with its protocol and the port of the pods that
it leads to. This is so exactly if the service has such a port; else the only
template is for all packets. -/
theorem templates_of_service {p : PolycubePolicy} {service : Service} {rs : List Record}
    {record : Record} {t : Rule} (hkind : p.body.applyTo.kind = .service)
    (h : records p (some service) = .ok rs) (hrecord : record ∈ rs) (hports : StandsIn p record)
    (ht : t ∈ record.templates) (hforward : t.action = .forward) :
    (service.ports.any (·.supported) = true ∧
        List.Forall₂ ServicePort.Shapes (service.ports.filter (·.supported))
          record.templates) ∨
      service.ports.any (·.supported) = false ∧
        record.templates = [Rule.opening .forward] := by
  obtain ⟨ns, found, d, hfound, hmem⟩ := mem_records h hrecord
  have hdefault : found.2 = service.podPorts := by
    rcases subject_cases hfound with ⟨hpod, -⟩ | ⟨-, s, hs, -, rfl⟩
    · rw [hkind] at hpod
      cases hpod
    · rw [Option.some.inj hs]
  rw [hdefault] at hmem
  rcases directionRecords_cases hmem with
    ⟨-, rfl⟩ | ⟨-, rfl⟩ | ⟨-, -, rfl | ⟨i, number, r, e, hr, he, rfl⟩⟩
  · -- the record drops all packets, so it has no template that forwards
    rw [Rule.action_of_mem_templates t ht] at hforward
    cases hforward
  · exact service.templates_podPorts .forward
  · cases ht
  · have hunlisted : r.protocols = [] := by
      rcases hports with hall | ⟨i', number', r', hname, hr', hunlisted⟩
      · obtain ⟨_, action, _, -, -, rfl⟩ := mem_entries he
        cases action <;> cases hall
      · -- the name of a record tells which rule it comes from
        obtain ⟨-, -, -, rfl, -⟩ := Record.nameAt_inj hname
        obtain rfl := Option.some.inj (hr.symm.trans hr')
        exact hunlisted
    obtain ⟨action, -, htemplates⟩ := templates_of_unlisted he hunlisted
    have hall : (Record.ofEntry (headerFor p found.1) d i number e).templates =
        Rule.templates action service.podPorts := htemplates
    rw [hall] at ht ⊢
    obtain rfl := (Rule.action_of_mem_templates t ht).symm.trans hforward
    exact service.templates_podPorts .forward

def fronted : PolycubePolicy where
  metadata := ⟨some "web", some "n", ∅, none, none, false⟩
  body := {
    applyTo := ⟨.service, none, some "api", none⟩
    priority := none
    spec := {
      description := none
      ingress := {
        dropAll := none
        allowAll := none
        rules := some [{
          peer := ⟨.world, none, none, none, some ["10.0.0.0/8"], none⟩
          protocols := []
          action := some "allow"
          description := none }]
        preventDirectAccess := none }
      egress := default } }

def api (ports : List ServicePort) : Service where
  name := "api"
  namespaceName := "n"
  selector := OrdMap.empty.insert "app" "api"
  clusterIp := some "10.96.0.10"
  ports := ports

def frontedRecord (templates : List Rule) : Record :=
  Record.ofEntry (headerFor fronted ⟨some (.labels (api []).selector), true, "n"⟩) .incoming 0 0
    ⟨.forward, some (.networks ["10.0.0.0/8"]), templates⟩

/-- The rule of the policy lists no protocol. -/
theorem standsIn_frontedRecord (templates : List Rule) :
    StandsIn fronted (frontedRecord templates) := .inr ⟨0, 0, _, rfl, rfl, rfl⟩

/-- A service with a port by name, one for a protocol that is not supported, and
one that leads to another port. The record has a template for the first and the
last of them. -/
theorem templates_of_service_of_mixed :
    let service := api [⟨"tcp", 443, none⟩, ⟨"SCTP", 9000, none⟩, ⟨"UDP", 53, some 5353⟩]
    let record := frontedRecord
      [(Rule.opening .forward).withPorts ⟨some .tcp, none, some 443⟩,
        (Rule.opening .forward).withPorts ⟨some .udp, none, some 5353⟩]
    records fronted (some service) = .ok [record] ∧ StandsIn fronted record ∧
      List.Forall₂ ServicePort.Shapes [⟨"tcp", 443, none⟩, ⟨"UDP", 53, some 5353⟩]
        record.templates := by
  intro service record
  have hrecords : records fronted (some service) = .ok [record] := by decide +kernel
  have hfilter : service.ports.filter (·.supported) =
      [⟨"tcp", 443, none⟩, ⟨"UDP", 53, some 5353⟩] := by decide +kernel
  refine ⟨hrecords, standsIn_frontedRecord _, ?_⟩
  rcases templates_of_service rfl hrecords List.mem_cons_self (standsIn_frontedRecord _)
    List.mem_cons_self rfl with ⟨-, hshapes⟩ | ⟨-, hopen⟩
  · rwa [hfilter] at hshapes
  · exact absurd hopen (by decide)

/-- A template need not be for a port of the service: the service here has one
for SCTP only, and the template is for every packet that opens a connection. -/
theorem service_port_widened :
    ¬∀ (p : PolycubePolicy) (service : Service) (rs : List Record) (record : Record) (t : Rule),
      p.body.applyTo.kind = .service → service.selector.isEmpty = false →
      records p (some service) = .ok rs → record ∈ rs → StandsIn p record →
      t ∈ record.templates → t.action = .forward → ∃ port ∈ service.ports, port.Shapes t := by
  intro h
  have hrecords : records fronted (some (api [⟨"SCTP", 9000, none⟩])) =
      .ok [frontedRecord [Rule.opening .forward]] := by decide +kernel
  obtain ⟨port, -, hshapes⟩ := h fronted _ _ _ _ rfl (by decide) hrecords List.mem_cons_self
    (standsIn_frontedRecord _) List.mem_cons_self rfl
  obtain ⟨q, -, -, hprotocol⟩ := hshapes.protocol
  cases hprotocol

end PolycubePolicy

end PodFirewall
