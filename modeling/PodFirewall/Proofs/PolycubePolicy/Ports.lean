import Mathlib.Data.List.Forall2
import PodFirewall.Proofs.Policy.Naming
import PodFirewall.Proofs.Rule.Verdict

/-!
The ports that a rule of a Polycube network policy lists. Each supported entry
becomes one template with its protocol. In an entry a port is a number of 32
bits, and 0 stands for every port; in a template it is a number of 16 bits, and
none stands for every port. Numbers that are no ports name none, but become
none as well, so that the template is for every port.
-/

namespace PodFirewall

/-- The protocol with a name is the only one whose name it is in upper case. -/
theorem Protocol.ofName?_eq_some_iff {s : String} {p : Protocol} :
    ofName? s = some p ↔ s.map Char.toUpper = p.name := by
  unfold ofName?
  split <;> cases p <;> simp_all [name]

/-- What is made of those elements of a list that something can be made of. -/
theorem forall₂_filterMap {α β γ : Type} {keep : α → Bool} {f : α → Option β} {g : β → γ}
    {R : α → γ → Prop} (hkeep : ∀ a, keep a = (f a).isSome)
    (hR : ∀ a b, f a = some b → R a (g b)) (l : List α) :
    List.Forall₂ R (l.filter keep) ((l.filterMap f).map g) := by
  induction l with
  | nil => exact .nil
  | cons a rest ih =>
    rcases ha : f a with _ | b
    · rw [List.filterMap_cons_none ha, List.filter_cons_of_neg (by simp [hkeep, ha])]
      exact ih
    · rw [List.filterMap_cons_some ha, List.filter_cons_of_pos (by simp [hkeep, ha]),
        List.map_cons]
      exact .cons (hR a b ha) ih

namespace PolycubePolicy

/-! ### From entries to templates -/

def Names (n : Int32) (port : UInt16) : Prop := n.toInt = 0 ∨ n.toInt = port.toNat

/-- Whether a field of a rule is for just the ports that a number names. -/
def Exact (n : Int32) (field : Option UInt16) : Prop :=
  ∀ port, field.all (· == port) = true ↔ Names n port

def IsPort (n : Int32) : Prop := 0 ≤ n.toInt ∧ n.toInt < 65536

/-- Whether a field is for just the ports that a number names, as long as it is 0
or a port, and for every port else. -/
structure Carries (n : Int32) (field : Option UInt16) : Prop where
  exact_iff : Exact n field ↔ IsPort n
  widened : ¬IsPort n → field = none

structure ProtocolEntry.Shapes (e : ProtocolEntry) (t : Rule) : Prop where
  protocol : ∃ p : Protocol, e.protocol.map Char.toUpper = p.name ∧ t.protocol = some p.name
  source : Carries e.ports.source t.sport
  destination : Carries e.ports.destination t.dport

def ProtocolEntry.supported (e : ProtocolEntry) : Bool := (Protocol.ofName? e.protocol).isSome

theorem portMatch?_of_isPort {n : Int32} (h : IsPort n) (hn : n.toInt ≠ 0) :
    ∃ port, portMatch? n = some port ∧ n.toInt = port.toNat := by
  obtain ⟨hle, hlt⟩ := h
  refine ⟨UInt16.ofNat n.toInt.toNat, ?_, ?_⟩
  · simp [portMatch?, PortRef.port?, hn, hle, hlt]
  · rw [UInt16.toNat_ofNat']
    omega

theorem portMatch?_of_not_isPort {n : Int32} (h : ¬IsPort n) : portMatch? n = none := by
  unfold IsPort at h
  simp [portMatch?, PortRef.port?, h]

theorem carries_portMatch? (n : Int32) : Carries n (portMatch? n) := by
  by_cases h : IsPort n
  · refine ⟨iff_of_true (fun port => ?_) h, fun hnot => absurd h hnot⟩
    by_cases hn : n.toInt = 0
    · simp [portMatch?, Names, hn]
    · obtain ⟨named, hmatch, hnamed⟩ := portMatch?_of_isPort h hn
      rw [hmatch, Option.all_some, beq_iff_eq, Names, hnamed, Int.natCast_inj, UInt16.toNat_inj]
      rw [hnamed] at hn
      exact (or_iff_right hn).symm
  · have hnone := portMatch?_of_not_isPort h
    refine ⟨iff_of_false (fun hexact => ?_) h, fun _ => hnone⟩
    -- the field is for port 0 too
    have hzero := (hexact 0).1 (by rw [hnone]; rfl)
    unfold IsPort at h
    simp only [Names, UInt16.toNat_zero] at hzero
    omega

theorem shapes_withPorts {e : ProtocolEntry} {m : PortMatch} (h : e.match? = some m) (r : Rule) :
    e.Shapes (r.withPorts m) := by
  obtain ⟨p, hp, rfl⟩ := Option.map_eq_some_iff.1 h
  exact ⟨⟨p, Protocol.ofName?_eq_some_iff.1 hp, rfl⟩, carries_portMatch? _, carries_portMatch? _⟩

theorem forall₂_portMatches (protocols : List ProtocolEntry) (r : Rule) :
    List.Forall₂ ProtocolEntry.Shapes (protocols.filter (·.supported))
      ((portMatches protocols).map r.withPorts) :=
  forall₂_filterMap (fun _ => (Option.isSome_map ..).symm) (fun _ _ h => shapes_withPorts h r)
    protocols

/-! ### The records of a policy -/

/-- The templates of a rule that lists protocols are those of the supported ones,
of which there is at least one. -/
theorem templates_of_mem_entries {r : TrafficRule} {ns : String} {servicePorts : List PortMatch}
    {e : Record.Entry} (he : e ∈ r.entries ns servicePorts) (hlisted : r.protocols ≠ []) :
    List.Forall₂ ProtocolEntry.Shapes (r.protocols.filter (·.supported)) e.templates := by
  obtain ⟨ports, action, peer, hports, -, rfl⟩ := mem_entries he
  rw [TrafficRule.ports?, if_neg (by simpa using hlisted)] at hports
  dsimp only at hports
  split at hports
  · cases hports
  · rename_i hsome
    obtain rfl := Option.some.inj hports
    dsimp only
    rw [Rule.templates_eq, if_neg hsome]
    exact forall₂_portMatches _ _

/-- A record of a direction that is not for all packets is an entry of one of its
rules. -/
theorem mem_directionRecords {h : Record.Header} {servicePorts : List PortMatch} {d : Direction}
    {rules : DirectionRules} {record : Record}
    (hrecord : record ∈ directionRecords h servicePorts d rules)
    (hall : record.action.isAll = false) :
    ∃ i number r e, rules.rules[i]? = some r ∧
      e ∈ r.entries h.subject.namespaceName servicePorts ∧
      record = Record.ofEntry h d i number e := by
  rcases directionRecords_cases hrecord with ⟨-, rfl⟩ | ⟨-, rfl⟩ | ⟨-, -, rfl | hentry⟩
  · cases hall
  · cases hall
  · cases hall
  · exact hentry

/-- A record that is not for all packets comes from a rule of the policy. If that
rule lists protocols, then the templates of the record are one for each supported
entry, in order, each with the protocol of its entry and with just the ports that
the numbers of the entry name, as far as these are 0 or ports. -/
theorem templates_of_listed {p : PolycubePolicy} {service : Option Service} {rs : List Record}
    {record : Record} (h : records p service = .ok rs) (hrecord : record ∈ rs)
    (hall : record.action.isAll = false) :
    ∃ i number r,
      record.name =
        Record.nameAt .pcn (p.metadata.name.getD "") record.direction i number ∧
      (p.body.spec.rules record.direction).rules[i]? = some r ∧
      (r.protocols ≠ [] → List.Forall₂ ProtocolEntry.Shapes (r.protocols.filter (·.supported))
        record.templates) := by
  obtain ⟨ns, found, d, -, hrecord⟩ := mem_records h hrecord
  obtain ⟨i, number, r, e, hr, he, rfl⟩ := mem_directionRecords hrecord hall
  exact ⟨i, number, r, rfl, hr, templates_of_mem_entries he⟩

/-- A policy that lets connections in for an unsupported protocol, for the TCP
port 70000, which there is not, and for the UDP port 53. -/
def mistyped : PolycubePolicy where
  metadata := ⟨some "web", some "n", ∅, none, none, false⟩
  body := {
    applyTo := ⟨.pod, some true, none, none⟩
    priority := none
    spec := {
      description := none
      ingress := {
        dropAll := none
        allowAll := none
        rules := some [{
          peer := ⟨.world, none, none, none, some ["10.0.0.0/8"], none⟩
          protocols := [⟨⟨0, 0⟩, "gre"⟩, ⟨⟨0, 70000⟩, "tcp"⟩, ⟨⟨0, 53⟩, "Udp"⟩]
          action := some "allow"
          description := none }]
        preventDirectAccess := none }
      egress := default } }

def widened : Record :=
  Record.ofEntry ⟨⟨"web", defaultPriority, .pcn⟩, none, ⟨none, false, "n"⟩⟩ .incoming 0 0 {
    action := .forward
    peer := some (.networks ["10.0.0.0/8"])
    templates := [(Rule.opening .forward).withPorts ⟨some .tcp, none, none⟩,
      (Rule.opening .forward).withPorts ⟨some .udp, none, some 53⟩] }

theorem records_mistyped : records mistyped none = .ok [widened] := by decide +kernel

/-- The record has one template for each of the supported entries. -/
theorem templates_of_listed_of_mistyped :
    records mistyped none = .ok [widened] ∧ widened ∈ [widened] ∧ widened.action.isAll = false ∧
      List.Forall₂ ProtocolEntry.Shapes [⟨⟨0, 70000⟩, "tcp"⟩, ⟨⟨0, 53⟩, "Udp"⟩]
        widened.templates := by
  have hrecord : widened ∈ [widened] := List.mem_cons_self
  refine ⟨records_mistyped, hrecord, rfl, ?_⟩
  obtain ⟨i, number, r, hplace, hr, hshapes⟩ := templates_of_listed records_mistyped hrecord rfl
  have hname : widened.name = Record.nameAt .pcn "web" .incoming 0 0 := rfl
  obtain ⟨-, -, -, rfl, -⟩ := Record.nameAt_inj (hname.symm.trans hplace)
  obtain rfl := Option.some.inj hr
  have hsupported : [⟨⟨0, 0⟩, "gre"⟩, ⟨⟨0, 70000⟩, "tcp"⟩, ⟨⟨0, 53⟩, "Udp"⟩].filter
      ProtocolEntry.supported = [⟨⟨0, 70000⟩, "tcp"⟩, ⟨⟨0, 53⟩, "Udp"⟩] := by decide +kernel
  have hshapes := hshapes (List.cons_ne_nil _ _)
  rwa [hsupported] at hshapes

/-- A template need not be for just the ports of an entry: the first one here is
for every port, though the TCP entry names none. -/
theorem listed_port_widened :
    ¬∀ (p : PolycubePolicy) (service : Option Service) (rs : List Record) (record : Record)
      (i number : Nat) (r : TrafficRule),
      records p service = .ok rs → record ∈ rs → record.action.isAll = false →
      record.name =
        Record.nameAt .pcn (p.metadata.name.getD "") record.direction i number →
      (p.body.spec.rules record.direction).rules[i]? = some r → r.protocols ≠ [] →
      ∀ t ∈ record.templates, ∃ e ∈ r.protocols,
        (∃ q : Protocol, e.protocol.map Char.toUpper = q.name ∧ t.protocol = some q.name) ∧
          Exact e.ports.source t.sport ∧ Exact e.ports.destination t.dport := by
  intro h
  obtain ⟨e, he, ⟨q, hq, ht⟩, -, hexact⟩ := h mistyped none _ widened 0 0 _ records_mistyped
    List.mem_cons_self rfl rfl rfl (List.cons_ne_nil _ _) _ List.mem_cons_self
  obtain rfl : q = .tcp := by cases q <;> first | rfl | exact absurd ht (by decide)
  -- only one entry is for TCP, and it names no port
  have hzero := (hexact 0).1 rfl
  rcases he with _ | ⟨_, _ | ⟨_, _ | ⟨_, he⟩⟩⟩
  · exact absurd hq (by decide +kernel)
  · simp [Names] at hzero
  · exact absurd hq (by decide +kernel)
  · cases he

end PolycubePolicy

end PodFirewall
