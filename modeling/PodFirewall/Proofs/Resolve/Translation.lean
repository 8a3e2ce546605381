import Mathlib.Data.List.Pairwise
import PodFirewall.Proofs.Rule.Verdict

/-!
Rules seen through a service, against packets that go to one of its ports. A
packet to a port of the service comes to the pods at the port that this one leads
to, so the rules for the service should let through what the templates let
through there. Only the port of a template is rewritten: one that names no
protocol keeps naming none, and then it matches the packets of every protocol to
the port of the service, also those that lead elsewhere.
-/

namespace PodFirewall

variable {α : Type}

namespace Crossing

def toPort (x : Crossing α) (port : UInt16) : Crossing α :=
  { x with packet := { x.packet with dport := port } }

variable {x : Crossing α} {t : Rule}

/-- A rewritten port matches a packet to the new port as the old one matches the
packet on its way to the old port. -/
theorem fits_rewritten {n : UInt16} (h : t.dport = some n) (x : Crossing α) (port : UInt16) :
    x.fits { t with dport := some port } = true ↔
      (x.toPort n).fits t = true ∧ port = x.packet.dport := by
  simp only [fits, toPort, h, Option.all_some, beq_self_eq_true, Bool.and_eq_true, beq_iff_eq,
    and_true]
  exact and_right_comm

theorem fits_toPort_of_none (h : t.dport = none) (x : Crossing α) (port : UInt16) :
    (x.toPort port).fits t = x.fits t := by
  simp only [fits, toPort, h, Option.all_none]

theorem eq_of_fits_toPort {n port : UInt16} (h : t.dport = some n)
    (hfits : (x.toPort port).fits t = true) : n = port := by
  simp only [fits, toPort, h, Option.all_some, Bool.and_eq_true, beq_iff_eq] at hfits
  exact hfits.1.2

/-- The protocol of a rule that matches a packet is that of the packet. -/
theorem all_protocol_of_fits (h : x.fits t = true) (test : String → Bool)
    (htest : test x.packet.protocol.name = true) : t.protocol.all test = true := by
  simp only [fits, Bool.and_eq_true] at h
  obtain ⟨⟨⟨⟨_, hprotocol⟩, _⟩, _⟩, _⟩ := h
  rcases hname : t.protocol with _ | name
  · rfl
  · rw [hname, Option.all_some, beq_iff_eq] at hprotocol
    rw [Option.all_some, hprotocol, htest]

end Crossing

namespace Service

variable {s : Service} {x : Crossing α} {e : ServicePort} {t : Rule}

def Distinct (s : Service) : Prop :=
  s.ports.Pairwise fun a b => ¬(sameProtocol a.protocol b.protocol = true ∧ a.port = b.port)

theorem sameProtocol_iff {a b : String} :
    sameProtocol a b = true ↔ a.map Char.toLower = b.map Char.toLower := beq_iff_eq

instance : Std.Symm fun a b : ServicePort =>
    ¬(sameProtocol a.protocol b.protocol = true ∧ a.port = b.port) where
  symm _ _ h := fun ⟨hsame, hport⟩ =>
    h ⟨sameProtocol_iff.2 (sameProtocol_iff.1 hsame).symm, hport.symm⟩

/-- Whether a template comes to a port of a service from another one, that has the
same number but leads elsewhere. -/
def Strays (s : Service) (x : Crossing α) (e : ServicePort) (t : Rule) : Prop :=
  ∃ other ∈ s.ports, other.port = e.port ∧ other.target ≠ e.target ∧
    t.dport = some other.target ∧ t.protocol.all (sameProtocol · other.protocol) = true ∧
    (x.toPort other.target).fits t = true

theorem leadsTo_iff {n : UInt16} {protocol : Option String} {port : ServicePort} :
    leadsTo n protocol port = true ↔
      port.target = n ∧ protocol.all (sameProtocol · port.protocol) = true := by
  unfold leadsTo
  rw [Bool.and_eq_true, beq_iff_eq]
  rcases protocol with _ | name <;> rfl

/-- A template for a port becomes a rule for the packet if it matches the packet on
its way there, and the packet goes to a port of the service that leads there. -/
theorem fits_throughPorts_iff {n : UInt16} (h : t.dport = some n) (s : Service)
    (x : Crossing α) :
    (∃ r ∈ s.throughPorts t, x.fits r = true) ↔
      (x.toPort n).fits t = true ∧
        ∃ port ∈ s.ports, leadsTo n t.protocol port = true ∧ port.port = x.packet.dport := by
  have hports : s.throughPorts t = (s.ports.filter (leadsTo n t.protocol)).map fun port =>
      { t with dport := some port.port } := by
    rw [throughPorts, h]
  rw [hports]
  constructor
  · rintro ⟨r, hr, hfits⟩
    obtain ⟨port, hport, rfl⟩ := List.mem_map.1 hr
    obtain ⟨hmem, hleads⟩ := List.mem_filter.1 hport
    obtain ⟨hthere, hnumber⟩ := (Crossing.fits_rewritten h x port.port).1 hfits
    exact ⟨hthere, port, hmem, hleads, hnumber⟩
  · rintro ⟨hthere, port, hmem, hleads, hnumber⟩
    exact ⟨_, List.mem_map_of_mem (List.mem_filter.2 ⟨hmem, hleads⟩),
      (Crossing.fits_rewritten h x port.port).2 ⟨hthere, hnumber⟩⟩

/-- What a single template becomes, for a packet to a port of the service. -/
theorem throughPorts_cases (he : e ∈ s.ports) (hport : e.port = x.packet.dport)
    (hprotocol : sameProtocol x.packet.protocol.name e.protocol = true) (t : Rule) :
    (∃ r ∈ s.throughPorts t, x.fits r = true) ↔
      (x.toPort e.target).fits t = true ∨ s.Strays x e t := by
  rcases h : t.dport with _ | n
  · have hself : s.throughPorts t = [t] := by rw [throughPorts, h]
    have hnot : ¬s.Strays x e t := by
      rintro ⟨other, -, -, -, hother, -⟩
      rw [h] at hother
      cases hother
    rw [hself, Crossing.fits_toPort_of_none h, or_iff_left hnot]
    simp
  · rw [fits_throughPorts_iff h]
    constructor
    · rintro ⟨hthere, port, hmem, hleads, hnumber⟩
      obtain ⟨rfl, hname⟩ := leadsTo_iff.1 hleads
      by_cases htarget : port.target = e.target
      · exact .inl (htarget ▸ hthere)
      · exact .inr ⟨port, hmem, hnumber.trans hport.symm, htarget, h, hname, hthere⟩
    · rintro (hthere | ⟨other, hmem, hnumber, -, hother, hname, hthere⟩)
      · obtain rfl := Crossing.eq_of_fits_toPort h hthere
        have hname : t.protocol.all (sameProtocol · e.protocol) = true :=
          Crossing.all_protocol_of_fits hthere _ hprotocol
        exact ⟨hthere, e, he, leadsTo_iff.2 ⟨rfl, hname⟩, hport⟩
      · obtain rfl := Option.some.inj (h.symm.trans hother)
        exact ⟨hthere, other, hmem, leadsTo_iff.2 ⟨rfl, hname⟩, hnumber.trans hport⟩

/-- If the ports of a service are distinct, then only a template that names no
protocol comes to a port from another one. -/
theorem Strays.protocol_eq_none (hdistinct : s.Distinct) (he : e ∈ s.ports)
    (hprotocol : sameProtocol x.packet.protocol.name e.protocol = true) (h : s.Strays x e t) :
    t.protocol = none := by
  obtain ⟨other, hmem, hnumber, htarget, -, hname, hthere⟩ := h
  rcases ht : t.protocol with _ | name
  · rfl
  · have hpacket : name = x.packet.protocol.name := by
      have hself := Crossing.all_protocol_of_fits hthere (· == x.packet.protocol.name)
        (beq_self_eq_true _)
      rwa [ht, Option.all_some, beq_iff_eq] at hself
    rw [ht, Option.all_some, hpacket, sameProtocol_iff] at hname
    rw [sameProtocol_iff] at hprotocol
    have hsame : sameProtocol other.protocol e.protocol = true :=
      sameProtocol_iff.2 (hname.symm.trans hprotocol)
    have hne : other ≠ e := fun heq => htarget (heq ▸ rfl)
    exact absurd ⟨hsame, hnumber⟩ (hdistinct.forall hmem he hne)

/-- Among the rules for a service there is one for a packet to a port of the
service exactly if some template is for the packet on its way to the port of the
pods, or strays to the port from another one. If the ports of the service are
distinct, then only templates that name no protocol stray. -/
theorem fits_seenThrough_iff (he : e ∈ s.ports) (hport : e.port = x.packet.dport)
    (hprotocol : sameProtocol x.packet.protocol.name e.protocol = true)
    (templates : List Rule) :
    ((∃ r ∈ s.seenThrough templates, x.fits r = true) ↔
        ∃ t ∈ templates, (x.toPort e.target).fits t = true ∨ s.Strays x e t) ∧
      (s.Distinct → ∀ t, s.Strays x e t → t.protocol = none) := by
  refine ⟨?_, fun hdistinct t => Strays.protocol_eq_none hdistinct he hprotocol⟩
  have hcases := throughPorts_cases he hport hprotocol
  constructor
  · rintro ⟨r, hr, hfits⟩
    obtain ⟨t, ht, hr⟩ := List.mem_flatMap.1 hr
    exact ⟨t, ht, (hcases t).1 ⟨r, hr, hfits⟩⟩
  · rintro ⟨t, ht, hfits⟩
    obtain ⟨r, hr, hfits⟩ := (hcases t).2 hfits
    exact ⟨r, List.mem_flatMap.2 ⟨t, ht, hr⟩, hfits⟩

/-- A service with one number for two protocols, of which only TCP keeps the
number. -/
def dns : Service where
  name := "dns"
  namespaceName := "n"
  selector := OrdMap.empty.insert "app" "dns"
  clusterIp := some "10.96.0.10"
  ports := [⟨"TCP", 53, none⟩, ⟨"UDP", 53, some 5353⟩]

def openTemplate : Rule := (Rule.opening .forward).withPorts ⟨none, none, some 5353⟩

def tcpQuery : Crossing Unit where
  resolver := ⟨default, none⟩
  direction := .outgoing
  covers _ _ := true
  packet := ⟨(), (), .tcp, 40000, 53, by decide⟩

theorem strays_openTemplate : dns.Strays tcpQuery ⟨"TCP", 53, none⟩ openTemplate :=
  ⟨⟨"UDP", 53, some 5353⟩, by decide, rfl, by decide, rfl, rfl, by decide⟩

/-- The ports of the service are distinct, and the template strays from the port
for UDP to the one for TCP. -/
theorem fits_seenThrough_iff_of_stray :
    (⟨"TCP", 53, none⟩ : ServicePort) ∈ dns.ports ∧ tcpQuery.packet.dport = 53 ∧
      sameProtocol tcpQuery.packet.protocol.name "TCP" = true ∧ dns.Distinct ∧
      (∃ r ∈ dns.seenThrough [openTemplate], tcpQuery.fits r = true) ∧
      openTemplate.protocol = none := by
  have hmem : (⟨"TCP", 53, none⟩ : ServicePort) ∈ dns.ports := by decide
  have hname : sameProtocol tcpQuery.packet.protocol.name "TCP" = true := by decide +kernel
  have hdistinct : dns.Distinct := by
    refine List.pairwise_pair.2 ?_
    rintro ⟨hsame, -⟩
    exact absurd hsame (by decide +kernel)
  obtain ⟨hrules, hnone⟩ :=
    fits_seenThrough_iff (x := tcpQuery) hmem rfl hname [openTemplate]
  exact ⟨hmem, rfl, hname, hdistinct,
    hrules.2 ⟨openTemplate, List.mem_cons_self, .inr strays_openTemplate⟩,
    hnone hdistinct openTemplate strays_openTemplate⟩

/-- A rule for a service need not come from a template for its port: the TCP
packet matches the rule for port 53, but on its way to port 53 of the pods it does
not match the template, which is for port 5353. -/
theorem open_template_strays :
    ¬∀ (s : Service) (templates : List Rule) (e : ServicePort) (x : Crossing Unit),
      (s.ports.Pairwise fun a b => ¬(a.protocol = b.protocol ∧ a.port = b.port)) →
      (∀ t ∈ templates, t.Placeless ∧ t.sport = none ∧
        (t.protocol = none ∨ t.protocol = some "TCP" ∨ t.protocol = some "UDP")) →
      e ∈ s.ports → e.protocol = x.packet.protocol.name → e.port = x.packet.dport →
      ((∃ r ∈ s.seenThrough templates, x.fits r = true) ↔
        ∃ t ∈ templates, (x.toPort e.target).fits t = true) := by
  intro h
  have htemplates : ∀ t ∈ [openTemplate], t.Placeless ∧ t.sport = none ∧
      (t.protocol = none ∨ t.protocol = some "TCP" ∨ t.protocol = some "UDP") := by
    intro t ht
    obtain rfl := List.mem_singleton.1 ht
    exact ⟨⟨rfl, rfl⟩, rfl, .inl rfl⟩
  obtain ⟨t, ht, hfits⟩ := (h dns [openTemplate] ⟨"TCP", 53, none⟩ tcpQuery (by decide) htemplates
    (by decide) rfl rfl).1 ⟨{ openTemplate with dport := some 53 }, by decide +kernel, by decide⟩
  obtain rfl := List.mem_singleton.1 ht
  exact absurd hfits (by decide)

end Service

end PodFirewall
