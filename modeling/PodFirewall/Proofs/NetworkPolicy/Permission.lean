import PodFirewall.Proofs.NetworkPolicy.Meaning

/-!
No more is let through than a policy allows. What a policy allows is stated
here as it is written: a rule allows a packet if one of its ports and one of its
peers do. A port that cannot be expressed, an exception or a selector that is
not understood may close a door, but it never opens one.
-/

namespace PodFirewall.NetworkPolicy

variable {α : Type}

structure Port.Allows (p : Port) (x : Crossing α) : Prop where
  single : p.endPort = none
  protocol : p.protocol = none ∨
    ∃ name, p.protocol = some name ∧ Protocol.ofName? name = some x.packet.protocol
  number : p.port = none ∨ p.port = some (.number 0) ∨
    p.port = some (.number x.packet.dport.toNat)

/-- Whether a text is the address of a live pod that the selectors of a peer
select: its own address or, for incoming traffic, its virtual one. -/
def PeerSelector.Finds (s : PeerSelector) (x : Crossing α) (home text : String) : Prop :=
  ∃ nkey pkey n p, x.resolver.cluster.namespaces.get? nkey = some n ∧
    x.resolver.cluster.pods.get? pkey = some p ∧
    p.object.metadata.namespaceName = some n.object.body.name ∧
    s.selectsSpace home n.object.body = true ∧ s.selectsPod p.object.body = true ∧
    text ∈ Resolver.podAddresses x.resolver.range x.direction p.object.body

/-- Whether a peer of a rule allows the packet: its block has the address of the
other side and no exception for it, or its selectors find a pod with the
address. -/
def PeerSelector.Allows (s : PeerSelector) (x : Crossing α) (home : String) : Prop :=
  (∃ b, s.ipBlock = some b ∧ x.meets b.cidr = true ∧ ∀ text ∈ b.except, x.meets text = false) ∨
    s.ipBlock = none ∧ s.isSupported = true ∧
      ∃ text, s.Finds x home text ∧ x.meets text = true

structure PolicyRule.Allows (r : PolicyRule) (x : Crossing α) (home : String) : Prop where
  ports : r.ports = [] ∨ ∃ p ∈ r.ports, p.Allows x
  peers : r.peers = [] ∨ ∃ s ∈ r.peers, s.Allows x home

variable {x : Crossing α} {home : String} {ports : List Port}

theorem Port.allows_of_admits {p : Port} (h : p.admits x = true) : p.Allows x := by
  rw [admits, speaks, Bool.and_eq_true, Bool.and_eq_true] at h
  obtain ⟨⟨hsingle, hprotocol⟩, hnumber⟩ := h
  refine ⟨Option.isNone_iff_eq_none.1 hsingle, ?_, ?_⟩
  · rcases hname : p.protocol with _ | name
    · exact .inl rfl
    · rw [hname, Option.all_some, beq_iff_eq] at hprotocol
      exact .inr ⟨name, rfl, hprotocol⟩
  · rcases hport : p.port with _ | n | name
    · exact .inl rfl
    · rw [hport] at hnumber
      simp only [Bool.or_eq_true, beq_iff_eq] at hnumber
      exact .inr (hnumber.imp (fun h => by rw [h]) fun h => by rw [h])
    · rw [hport] at hnumber
      cases hnumber

theorem allows_of_somePort (h : somePort ports (·.admits x) = true) :
    ports = [] ∨ ∃ p ∈ ports, p.Allows x := by
  rw [somePort, Bool.or_eq_true, List.isEmpty_iff, List.any_eq_true] at h
  rcases h with hnone | ⟨p, hp, hadmits⟩
  · exact .inl hnone
  · exact .inr ⟨p, hp, Port.allows_of_admits hadmits⟩

theorem PeerSelector.finds_of_reachesPod {s : PeerSelector} (h : s.reachesPod x home = true) :
    ∃ text, s.Finds x home text ∧ x.meets text = true := by
  rw [reachesPod, List.any_eq_true] at h
  obtain ⟨n, hn, h⟩ := h
  rw [Bool.and_eq_true, List.any_eq_true] at h
  obtain ⟨hspace, p, hp, h⟩ := h
  rw [Bool.and_eq_true, List.any_eq_true] at h
  obtain ⟨hpod, text, htext, hmeets⟩ := h
  obtain ⟨⟨nkey, hn⟩, -⟩ := Store.mem_list.1 hn
  obtain ⟨⟨pkey, hp⟩, hlives⟩ := Store.mem_list.1 hp
  exact ⟨text, ⟨nkey, pkey, n, p, hn, hp, beq_iff_eq.1 hlives, hspace, hpod, htext⟩, hmeets⟩

/-- A packet that does not go to the address of a service reaches none. -/
theorem PeerSelector.reachesService_eq_false
    (hservices : ∀ key v, x.resolver.cluster.services.get? key = some v →
      ∀ ip, v.object.body.clusterIp = some ip → x.meets ip = false)
    (s : PeerSelector) : s.reachesService x home ports = false := by
  rw [reachesService, Bool.and_eq_false_iff]
  refine .inr (List.any_eq_false.2 fun n _ => ?_)
  rw [Bool.not_eq_true, Bool.and_eq_false_iff]
  refine .inr (List.any_eq_false.2 fun v hv => ?_)
  obtain ⟨⟨key, hkey⟩, -⟩ := Store.mem_list.1 hv
  rcases hip : v.object.body.clusterIp with _ | ip
  · simp
  · simp [hservices key v hkey ip hip]

/-- A peer that forwards the packet allows it, and so do the ports of its
rule. -/
theorem PeerSelector.allows_of_verdict? {s : PeerSelector}
    (hservices : ∀ key v, x.resolver.cluster.services.get? key = some v →
      ∀ ip, v.object.body.clusterIp = some ip → x.meets ip = false)
    (h : s.verdict? x home ports = some .forward) :
    (ports = [] ∨ ∃ p ∈ ports, p.Allows x) ∧ s.Allows x home := by
  unfold verdict? at h
  split at h
  · rename_i b hblock
    split at h
    · rename_i hadmits
      rw [Bool.and_eq_true] at hadmits
      refine ⟨allows_of_somePort hadmits.2, .inl ⟨b, hblock, ?_⟩⟩
      split at h
      · cases h
      · rename_i hexcept
        split at h
        · rename_i hmeets
          rw [Bool.not_eq_true, List.any_eq_false] at hexcept
          exact ⟨hmeets, fun text htext => Bool.eq_false_iff.2 (hexcept text htext)⟩
        · cases h
    · cases h
  · rename_i hblock
    split at h
    · rename_i hreaches
      rw [reachesService_eq_false hservices, Bool.or_false, Bool.and_eq_true,
        Bool.and_eq_true] at hreaches
      obtain ⟨hsupported, hadmits, hpod⟩ := hreaches
      exact ⟨allows_of_somePort hadmits,
        .inr ⟨hblock, hsupported, finds_of_reachesPod hpod⟩⟩
    · cases h

theorem PolicyRule.allows_of_verdict? {r : PolicyRule}
    (hservices : ∀ key v, x.resolver.cluster.services.get? key = some v →
      ∀ ip, v.object.body.clusterIp = some ip → x.meets ip = false)
    (h : r.verdict? x home = some .forward) : r.Allows x home := by
  unfold verdict? at h
  split at h
  · rename_i hpeers
    split at h
    · exact ⟨allows_of_somePort ‹_›, .inl (List.isEmpty_iff.1 hpeers)⟩
    · cases h
  · obtain ⟨s, hs, h⟩ := List.exists_of_findSome?_eq_some h
    obtain ⟨hports, hpeer⟩ := PeerSelector.allows_of_verdict? hservices h
    exact ⟨hports, .inr ⟨s, hs, hpeer⟩⟩

/-- Whatever the texts of addresses stand for: if the rules of a policy forward
a packet that does not go to the address of a service, a rule of the policy
allows it. -/
theorem allowed_of_forwarded {p : NetworkPolicy} {rules : List Rule}
    (hrules : x.resolver.rulesOf? p x.direction = some rules)
    (hservices : ∀ key v, x.resolver.cluster.services.get? key = some v →
      ∀ ip, v.object.body.clusterIp = some ip → x.meets ip = false)
    (hforward : x.verdict? rules = some .forward) :
    ∃ r ∈ p.body.rules x.direction, r.Allows x (NetworkPolicy.home p) := by
  rw [verdict?_rulesOf hrules, NetworkPolicy.verdict?] at hforward
  split at hforward
  · obtain ⟨r, hr, hverdict⟩ := List.exists_of_findSome?_eq_some hforward
    exact ⟨r, hr, PolicyRule.allows_of_verdict? hservices hverdict⟩
  · cases hforward

/-- A packet to port 80 from the network 10.0.0.0/8, with the second byte of its
address, in a cluster that nothing is known of. -/
def fromTen (second : Nat) : Crossing Nat where
  resolver := ⟨default, none⟩
  direction := .incoming
  covers text address := text == "10.0.0.0/8" || text == "10." ++ toString address ++ ".0.0/16"
  packet := ⟨second, 0, .tcp, 40000, 80, nofun⟩

def webPolicy (rules : List PolicyRule) : NetworkPolicy where
  metadata := ⟨some "web", some "n", ∅, none, none, false⟩
  body := ⟨⟨∅, false⟩, ["Ingress"], rules, []⟩

def blockRule (cidr : String) (except : List String) (ports : List Port) : PolicyRule :=
  ⟨[⟨some ⟨cidr, except⟩, none, none⟩], ports⟩

/-- A packet from beside the exception of a block is forwarded, and its rule
allows it. -/
theorem allowed_beside_exception :
    let r := blockRule "10.0.0.0/8" ["10.1.0.0/16"]
      [⟨some "TCP", some (.name "http"), none⟩, ⟨some "TCP", some (.number 80), none⟩]
    ∃ rules, (fromTen 2).resolver.rulesOf? (webPolicy [r]) .incoming = some rules ∧
      (fromTen 2).verdict? rules = some .forward ∧ r.Allows (fromTen 2) "n" := by
  intro r
  obtain ⟨rules, hrules⟩ : ∃ rules,
      (fromTen 2).resolver.rulesOf? (webPolicy [r]) .incoming = some rules :=
    Option.isSome_iff_exists.1 (by decide +kernel)
  have hforward : (fromTen 2).verdict? rules = some .forward :=
    (verdict?_rulesOf hrules).trans (by decide +kernel)
  obtain ⟨r', hr', hallows⟩ := allowed_of_forwarded hrules (fun _ _ h => nomatch h) hforward
  obtain rfl := List.mem_singleton.1 hr'
  exact ⟨rules, hrules, hforward, hallows⟩

end PodFirewall.NetworkPolicy
