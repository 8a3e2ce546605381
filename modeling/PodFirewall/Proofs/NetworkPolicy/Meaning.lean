import PodFirewall.Proofs.Policy.Records
import PodFirewall.Proofs.Resolve.Locality
import PodFirewall.Proofs.Rule.Verdict

/-!
What a network policy says of a packet, and that its records say the same.
The meaning of a policy is read off its rules alone: the first rule that speaks
of a packet decides, within a rule the first peer does, and a block speaks of
its exceptions before it speaks of the rest. Ports and peers that cannot be
expressed speak of nothing.
-/

namespace PodFirewall

variable {α : Type}

def LabelSelector.selects (s : LabelSelector) (labels : Labels) : Bool :=
  !s.hasExpressions && s.labels.contained labels

def IpBlock.isUsable (b : IpBlock) : Bool :=
  (b.cidr :: b.except).all fun text => (Cidr.parseNetwork text).isOk

namespace NetworkPolicy

/-! ### The meaning of ports -/

namespace Port

def speaks (p : Port) (x : Crossing α) (test : Int → Bool) : Bool :=
  p.endPort.isNone &&
    p.protocol.all (fun name => Protocol.ofName? name == some x.packet.protocol) &&
    match p.port with
    | none => true
    | some (.number n) => n == 0 || test n
    | some (.name _) => false

def admits (p : Port) (x : Crossing α) : Bool := p.speaks x (· == x.packet.dport.toNat)

/-- Whether a port is one that the packet comes to if it goes through a
service. -/
def admitsThrough (p : Port) (s : Service) (x : Crossing α) : Bool :=
  p.speaks x fun n => s.ports.any fun port =>
    n == port.target.toNat && port.port == x.packet.dport &&
      (p.protocol.isNone || Service.sameProtocol x.packet.protocol.name port.protocol)

end Port

/-- Whether a test holds of one of some ports, of which there may be none at
all. -/
def somePort (ports : List Port) (test : Port → Bool) : Bool := ports.isEmpty || ports.any test

/-! ### The meaning of peers -/

namespace PeerSelector

def isSupported (s : PeerSelector) : Bool :=
  (s.pods.isSome || s.namespaces.isSome) && s.pods.all (!·.hasExpressions) &&
    s.namespaces.all (!·.hasExpressions)

def selectsSpace (s : PeerSelector) (home : String) (n : Namespace) : Bool :=
  match s.namespaces with
  | some selector => selector.selects n.labels
  | none => n.name == home

def selectsPod (s : PeerSelector) (p : Pod) : Bool := p.live && s.pods.all (·.selects p.labels)

def isServedBy (s : PeerSelector) (service : Service) : Bool :=
  !service.selector.isEmpty &&
    s.pods.all fun selector =>
      selector.labels.isEmpty || service.selector.contained selector.labels

/-- Whether a live pod that the peer is about has the address of the other
side. -/
def reachesPod (s : PeerSelector) (x : Crossing α) (home : String) : Bool :=
  (x.resolver.cluster.namespaces.list fun _ => true).any fun n =>
    s.selectsSpace home n.object.body &&
      (x.resolver.cluster.pods.list (Cluster.livesIn n.object.body.name)).any fun p =>
        s.selectsPod p.object.body &&
          (Resolver.podAddresses x.resolver.range x.direction p.object.body).any x.meets

/-- Whether outgoing traffic goes to a service in front of the pods that the
peer is about, and through it to one of their ports. -/
def reachesService (s : PeerSelector) (x : Crossing α) (home : String) (ports : List Port) :
    Bool :=
  x.direction == .outgoing &&
    (x.resolver.cluster.namespaces.list fun _ => true).any fun n =>
      s.selectsSpace home n.object.body &&
        (x.resolver.cluster.services.list (Cluster.livesIn n.object.body.name)).any fun v =>
          s.isServedBy v.object.body && v.object.body.clusterIp.any x.meets &&
            somePort ports (·.admitsThrough v.object.body x)

def verdict? (s : PeerSelector) (x : Crossing α) (home : String) (ports : List Port) :
    Option RuleAction :=
  match s.ipBlock with
  | some b =>
    if b.isUsable && somePort ports (·.admits x) then
      if b.except.any x.meets then some .drop
      else if x.meets b.cidr then some .forward
      else none
    else none
  | none =>
    if s.isSupported &&
        (somePort ports (·.admits x) && s.reachesPod x home || s.reachesService x home ports) then
      some .forward
    else none

end PeerSelector

def PolicyRule.verdict? (r : PolicyRule) (x : Crossing α) (home : String) : Option RuleAction :=
  if r.peers.isEmpty then
    if somePort r.ports (·.admits x) then some .forward else none
  else r.peers.findSome? (·.verdict? x home r.ports)

def home (p : NetworkPolicy) : String := p.metadata.namespaceName.getD ""

def verdict? (p : NetworkPolicy) (x : Crossing α) : Option RuleAction :=
  if p.body.restricts x.direction then
    (p.body.rules x.direction).findSome? (·.verdict? x (home p))
  else none

/-! ### Ports -/

theorem any_port? (n : Int) (t : UInt16) : (PortRef.port? n).any (t == ·) = (n == t.toNat) := by
  unfold PortRef.port?
  have ht := t.toNat_lt
  split
  · rename_i hrange
    have hn : (UInt16.ofNat n.toNat).toNat = n.toNat := UInt16.toNat_ofNat_of_lt' (by
      rw [UInt16.size]
      omega)
    rw [Option.any_some, Bool.eq_iff_iff, beq_iff_eq, beq_iff_eq, ← UInt16.toNat_inj, hn]
    omega
  · rename_i hrange
    rw [Option.any_none, eq_comm, beq_eq_false_iff_ne]
    omega

namespace Port

theorem protocolMatch?_cases (p : Port) {q : Protocol} (hq : q ≠ .icmp) :
    p.protocolMatch? = none ∧ p.protocol.all (Protocol.ofName? · == some q) = false ∨
      ∃ m, p.protocolMatch? = some m ∧
        m.all (· == q) = p.protocol.all (Protocol.ofName? · == some q) ∧
        (m.all (· == q) = true → m = p.protocol.map fun _ => q) := by
  unfold protocolMatch?
  rcases p.protocol with _ | name
  · exact .inr ⟨none, rfl, rfl, fun _ => rfl⟩
  · dsimp only
    split
    · rename_i hname
      exact .inr ⟨some .tcp, rfl, by simp [hname], by simp⟩
    · rename_i hname
      exact .inr ⟨some .udp, rfl, by simp [hname], by simp⟩
    · rename_i htcp hudp
      refine .inl ⟨rfl, ?_⟩
      cases q with
      | tcp => simpa using htcp
      | udp => simpa using hudp
      | icmp => exact absurd rfl hq

theorem any_number? (p : Port) (test : UInt16 → Bool) :
    p.number?.any (·.all test) =
      match p.port with
      | none => true
      | some (.number n) => n == 0 || (PortRef.port? n).any test
      | some (.name _) => false := by
  unfold number?
  rcases p.port with _ | n | name
  · rfl
  · dsimp only
    by_cases hn : n = 0
    · simp [hn]
    · rw [if_neg hn, beq_eq_false_iff_ne.2 hn, Bool.false_or, Option.any_map]
      rfl
  · rfl

/-- A port that can be expressed speaks of a packet if its match does, and one
that cannot speaks of none. -/
theorem any_match? (p : Port) (x : Crossing α) (test : Option Protocol → UInt16 → Bool) :
    (p.match?.any fun m =>
        m.protocol.all (· == x.packet.protocol) && m.sport.all (· == x.packet.sport) &&
          m.dport.all (test m.protocol)) =
      p.speaks x fun n =>
        (PortRef.port? n).any (test (p.protocol.map fun _ => x.packet.protocol)) := by
  unfold match? speaks
  rw [← any_number?]
  rcases p.protocolMatch?_cases x.packet.hasPorts with ⟨hm, hnone⟩ | ⟨m, hm, hall, hself⟩
  · simp [hm, hnone]
  · rw [hm, ← hall]
    rcases p.endPort with _ | last
    · rcases p.number? with _ | dport
      · simp
      · simp only [Option.bind_eq_bind, Option.bind_some, Option.isSome_none, Bool.false_eq_true, if_false,
          Option.any_some, Option.all_none, Bool.and_true, Option.isNone_none, Bool.true_and]
        by_cases hq : m.all (· == x.packet.protocol) = true
        · rw [hself hq]
        · rw [Bool.eq_false_iff.2 hq, Bool.false_and, Bool.false_and]
    · simp

end Port

theorem any_portMatches (ports : List Port) (f : PortMatch → Bool) :
    (portMatches ports).any f = ports.any fun p => p.match?.any f := by
  induction ports with
  | nil => rfl
  | cons p rest ih =>
    unfold portMatches at ih ⊢
    rw [List.filterMap_cons, List.any_cons, ← ih]
    rcases p.match? with _ | m
    · rfl
    · rfl

/-- Whether there are ports and all of them are left out. -/
def allLeftOut (ports : List Port) : Bool := !ports.isEmpty && (portMatches ports).isEmpty

/-- A test of the matches for some ports that is a test of the ports. -/
theorem some_portMatches {ports : List Port} {f : PortMatch → Bool} {test : Port → Bool}
    (hports : allLeftOut ports = false) (htest : ∀ p : Port, p.match?.any f = test p) :
    ((portMatches ports).isEmpty || (portMatches ports).any f) = somePort ports test := by
  rw [any_portMatches, somePort]
  simp only [htest]
  rcases ports with _ | ⟨p, rest⟩
  · rfl
  · rw [allLeftOut, List.isEmpty_cons, Bool.not_false, Bool.true_and] at hports
    rw [hports, List.isEmpty_cons]

/-- Ports that are all left out pass no such test. -/
theorem somePort_of_allLeftOut {ports : List Port} {f : PortMatch → Bool} {test : Port → Bool}
    (hports : allLeftOut ports = true) (htest : ∀ p : Port, p.match?.any f = test p) :
    somePort ports test = false := by
  rw [allLeftOut, Bool.and_eq_true, Bool.not_eq_true'] at hports
  have hany := any_portMatches ports f
  rw [List.isEmpty_iff.1 hports.2] at hany
  simp only [htest] at hany
  rw [somePort, hports.1, ← hany]
  rfl

theorem any_match?_fitsPorts (x : Crossing α) (p : Port) :
    p.match?.any x.fitsPorts = p.admits x := by
  refine (p.any_match? x fun _ port => port == x.packet.dport).trans ?_
  unfold Port.admits
  congr 1
  funext n
  rw [← any_port?]
  congr 1
  funext t
  exact Bool.beq_comm

theorem fitsSome_portMatches {ports : List Port} (x : Crossing α)
    (hports : allLeftOut ports = false) :
    x.fitsSome (portMatches ports) = somePort ports (·.admits x) :=
  some_portMatches hports (any_match?_fitsPorts x)

/-! ### Services -/

theorem placeless_seenThrough {rules : List Rule} (h : ∀ r ∈ rules, r.Placeless) (s : Service) :
    ∀ r ∈ s.seenThrough rules, r.Placeless := by
  intro r hr
  obtain ⟨t, ht, hr⟩ := List.mem_flatMap.1 hr
  unfold Service.throughPorts at hr
  split at hr
  · rw [List.mem_singleton] at hr
    exact hr ▸ h t ht
  · obtain ⟨_, -, rfl⟩ := List.mem_map.1 hr
    exact h t ht

/-- A match seen through a service: the packet has its protocol, and goes to a
port of the service that leads to its port. -/
theorem any_throughPorts (s : Service) (x : Crossing α) (action : RuleAction) (m : PortMatch) :
    (s.throughPorts ((Rule.opening action).withPorts m)).any x.fits =
      (m.protocol.all (· == x.packet.protocol) && m.sport.all (· == x.packet.sport) &&
        m.dport.all fun n => s.ports.any fun port =>
          Service.leadsTo n (m.protocol.map Protocol.name) port &&
            port.port == x.packet.dport) := by
  rcases m with ⟨protocol, sport, _ | n⟩
  · have hself : s.throughPorts ((Rule.opening action).withPorts ⟨protocol, sport, none⟩) =
        [(Rule.opening action).withPorts ⟨protocol, sport, none⟩] := rfl
    rw [hself, List.any_cons, List.any_nil, Bool.or_false, Crossing.fits_opening_withPorts]
    rfl
  · have hports : s.throughPorts ((Rule.opening action).withPorts ⟨protocol, sport, some n⟩) =
        (s.ports.filter (Service.leadsTo n (protocol.map Protocol.name))).map fun port =>
          (Rule.opening action).withPorts ⟨protocol, sport, some port.port⟩ := rfl
    rw [hports, List.any_map, List.any_filter, Option.all_some]
    have hfits (port : ServicePort) :
        x.fits ((Rule.opening action).withPorts ⟨protocol, sport, some port.port⟩) =
          (protocol.all (· == x.packet.protocol) && sport.all (· == x.packet.sport) &&
            port.port == x.packet.dport) := by
      rw [Crossing.fits_opening_withPorts]
      rfl
    simp only [Function.comp_apply, hfits]
    rcases (protocol.all (· == x.packet.protocol) && sport.all (· == x.packet.sport))
    · simp
    · simp

theorem any_match?_throughPorts (s : Service) (x : Crossing α) (action : RuleAction) (p : Port) :
    (p.match?.any fun m => (s.throughPorts ((Rule.opening action).withPorts m)).any x.fits) =
      p.admitsThrough s x := by
  simp only [any_throughPorts]
  refine (p.any_match? x fun protocol n => s.ports.any fun port =>
    Service.leadsTo n (protocol.map Protocol.name) port && port.port == x.packet.dport).trans ?_
  unfold Port.admitsThrough
  congr 1
  funext n
  have htarget (port : ServicePort) :
      (n == port.target.toNat) = (PortRef.port? n).any (port.target == ·) :=
    (any_port? n port.target).symm
  simp only [htarget]
  rcases PortRef.port? n with _ | u
  · simp
  · simp only [Option.any_some, Service.leadsTo]
    congr 1
    funext port
    rcases p.protocol with _ | name
    · simp
    · simp only [Option.map_some, Option.isNone_some, Bool.false_or, Bool.and_assoc]
      rw [Bool.and_comm (Service.sameProtocol _ _)]

theorem any_seenThrough {ports : List Port} (s : Service) (x : Crossing α) (action : RuleAction)
    (hports : allLeftOut ports = false) :
    (s.seenThrough (Rule.templates action (portMatches ports))).any x.fits =
      somePort ports (·.admitsThrough s x) := by
  rw [← some_portMatches hports (any_match?_throughPorts s x action), Service.seenThrough,
    Rule.templates_eq]
  split
  · rename_i hnone
    rw [hnone]
    rfl
  · rename_i hsome
    rw [Bool.eq_false_iff.2 hsome, List.flatMap_map, List.any_flatMap, Bool.false_or]

/-! ### Selectors -/

namespace PeerSelector

variable {s : PeerSelector} {home : String} {query namespaces : Option Query}

theorem allows_query {selector : LabelSelector} (h : selector.query = .ok query) (name : String)
    (labels : Labels) : Query.allows query name labels = selector.selects labels := by
  unfold LabelSelector.query at h
  split at h
  · cases h
  · rename_i hexpressions
    rw [← Except.ok.inj h, LabelSelector.selects, Bool.eq_false_iff.2 hexpressions, Bool.not_false,
      Bool.true_and]
    by_cases hempty : selector.labels.isEmpty = true
    · have hcontained : selector.labels.contained labels = true := by
        rw [Labels.contained, List.isEmpty_iff.1 hempty]
        rfl
      simp [Query.build?, Query.allows, Option.filter_some, hempty, hcontained]
    · simp [Query.build?, Query.allows, Query.matches, Option.filter_some, hempty]

theorem fronts_query {selector : LabelSelector} (h : selector.query = .ok query) (v : Service)
    (pods : List Pod) :
    v.fronts query pods =
      (!v.selector.isEmpty &&
        (selector.labels.isEmpty || v.selector.contained selector.labels)) := by
  unfold LabelSelector.query at h
  split at h
  · cases h
  · rw [← Except.ok.inj h, Service.fronts.eq_def]
    by_cases hempty : selector.labels.isEmpty = true
    · simp [Query.build?, Option.filter_some, hempty]
    · simp [Query.build?, Option.filter_some, hempty]

theorem hasExpressions_of_query (selector : LabelSelector) :
    (∃ query, selector.query = .ok query) ∧ selector.hasExpressions = false ∨
      (∃ e, selector.query = .error e) ∧ selector.hasExpressions = true := by
  unfold LabelSelector.query
  split
  · exact .inr ⟨⟨_, rfl⟩, ‹_›⟩
  · exact .inl ⟨⟨_, rfl⟩, Bool.eq_false_iff.2 ‹_›⟩

structure AsksFor (s : PeerSelector) (home : String) (query namespaces : Option Query) : Prop where
  spaces : ∀ n : Namespace, Query.allows namespaces n.name n.labels = s.selectsSpace home n
  pods : ∀ p : Pod, (p.live && Query.allows query p.name p.labels) = s.selectsPod p
  services : ∀ (v : Service) (pods : List Pod), v.fronts query pods = s.isServedBy v

/-- The selector of pods of a peer is expressed by a query, or not supported. -/
theorem queryOf_cases (s : PeerSelector) :
    (∃ query, LabelSelector.queryOf s.pods = .ok query ∧
      (∀ p : Pod, (p.live && Query.allows query p.name p.labels) = s.selectsPod p) ∧
      ∀ (v : Service) (pods : List Pod), v.fronts query pods = s.isServedBy v) ∧
      s.pods.all (!·.hasExpressions) = true ∨
    (∃ e, LabelSelector.queryOf s.pods = .error e) ∧ s.pods.all (!·.hasExpressions) = false := by
  unfold selectsPod isServedBy
  rcases s.pods with _ | selector
  · exact .inl ⟨⟨none, rfl, fun _ => rfl, fun _ _ => rfl⟩, rfl⟩
  · rcases hasExpressions_of_query selector with ⟨⟨query, hquery⟩, h⟩ | ⟨⟨e, herror⟩, h⟩
    · refine .inl ⟨⟨query, hquery, fun p => ?_, fun v pods => ?_⟩, by simp [h]⟩
      · rw [allows_query hquery, Option.all_some]
      · rw [fronts_query hquery, Option.all_some]
    · exact .inr ⟨⟨e, herror⟩, by simp [h]⟩

theorem ofSelectors_some (pods : Option LabelSelector) (selector : LabelSelector)
    (home : String) :
    Peer.ofSelectors pods (some selector) home =
      (do
        let namespaces ← selector.query
        return .pods (← LabelSelector.queryOf pods) namespaces) := by
  cases pods <;> rfl

/-- The selectors of a peer are expressed by queries, or not supported. -/
theorem ofSelectors_cases (s : PeerSelector) (home : String) :
    (∃ query namespaces, Peer.ofSelectors s.pods s.namespaces home = .ok (.pods query namespaces) ∧
      s.AsksFor home query namespaces) ∧ s.isSupported = true ∨
    (∃ e, Peer.ofSelectors s.pods s.namespaces home = .error e) ∧ s.isSupported = false := by
  have hpods := s.queryOf_cases
  rcases s with ⟨block, pods, spaces⟩
  unfold isSupported
  rcases spaces with _ | selector
  · unfold Peer.ofSelectors
    rcases pods with _ | selector
    · exact .inr ⟨⟨.noPeer, rfl⟩, rfl⟩
    · rcases hpods with ⟨⟨query, hquery, hpods, hservices⟩, h⟩ | ⟨⟨e, herror⟩, h⟩
      · refine .inl ⟨⟨query, some (.name home), ?_, ⟨fun n => ?_, hpods, hservices⟩⟩, ?_⟩
        · dsimp only at hquery ⊢
          rw [hquery]
          rfl
        · simp [Query.allows, Query.matches, selectsSpace, Bool.beq_comm]
        · simpa using h
      · refine .inr ⟨⟨e, ?_⟩, by simpa using h⟩
        dsimp only at herror ⊢
        rw [herror]
        rfl
  · rw [ofSelectors_some]
    rcases hasExpressions_of_query selector with ⟨⟨nquery, hnquery⟩, hn⟩ | ⟨⟨e, herror⟩, hn⟩
    · rcases hpods with ⟨⟨query, hquery, hpods, hservices⟩, h⟩ | ⟨⟨e, herror⟩, h⟩
      · refine .inl ⟨⟨query, nquery, ?_, ⟨fun n => allows_query hnquery _ _, hpods, hservices⟩⟩, ?_⟩
        · dsimp only at hquery ⊢
          rw [hquery, hnquery]
          rfl
        · simpa [hn] using h
      · refine .inr ⟨⟨e, ?_⟩, by simp [h]⟩
        dsimp only at herror ⊢
        rw [herror, hnquery]
        rfl
    · refine .inr ⟨⟨e, ?_⟩, by simp [hn]⟩
      dsimp only
      rw [herror]
      rfl

end PeerSelector

end NetworkPolicy

/-! ### Resolved pods -/

namespace Resolver

variable {r : Resolver} {d : Direction} {templates rules : List Rule}
  {query namespaces : Option Query}

/-- Rules that could be resolved are those for what is known. -/
theorem resolvePods_ok (h : r.resolvePods d templates query namespaces = .ok rules) :
    rules = r.rulesFor d templates query (r.cluster.spaces namespaces)
      ((r.cluster.spaces namespaces).flatMap fun n => r.cluster.known query n.name) := by
  rw [resolvePods_eq_missing] at h
  split at h
  · cases h
  · exact (Except.ok.inj h).symm

end Resolver

namespace Crossing

open NetworkPolicy (Port PeerSelector somePort portMatches allLeftOut)

variable {x : Crossing α} {action : RuleAction} {query namespaces : Option Query}

theorem action_of_mem_serviceRules {templates : List Rule}
    (h : ∀ t ∈ templates, t.action = action) (pods : List Pod) (v : Service) :
    ∀ rule ∈ Resolver.serviceRules templates query pods v, rule.action = action := by
  intro rule hrule
  unfold Resolver.serviceRules at hrule
  split at hrule
  · cases hrule
  · split at hrule
    · refine action_of_mem_fillAll (fun t ht => ?_) rule hrule
      obtain ⟨t', ht', ht⟩ := List.mem_flatMap.1 ht
      unfold Service.throughPorts at ht
      split at ht
      · rw [List.mem_singleton] at ht
        exact ht ▸ h t' ht'
      · obtain ⟨_, -, rfl⟩ := List.mem_map.1 ht
        exact h t' ht'
    · cases hrule

theorem action_of_mem_rulesFor {r : Resolver} {d : Direction} {templates : List Rule}
    (h : ∀ t ∈ templates, t.action = action) (spaces : List Namespace) (pods : List Pod) :
    ∀ rule ∈ r.rulesFor d templates query spaces pods, rule.action = action := by
  have hdirect : ∀ rule ∈ pods.flatMap fun p =>
      (Resolver.podAddresses r.range d p).flatMap (Resolver.fillAll d templates),
      rule.action = action := by
    intro rule hrule
    obtain ⟨p, -, hrule⟩ := List.mem_flatMap.1 hrule
    obtain ⟨text, -, hrule⟩ := List.mem_flatMap.1 hrule
    exact action_of_mem_fillAll h rule hrule
  intro rule hrule
  unfold Resolver.rulesFor at hrule
  dsimp only at hrule
  split at hrule
  · exact hdirect rule hrule
  · rcases List.mem_append.1 hrule with hrule | hrule
    · exact hdirect rule hrule
    · obtain ⟨v, -, hrule⟩ := List.mem_flatMap.1 hrule
      exact action_of_mem_serviceRules h pods v rule hrule

theorem any_serviceRules {ports : List Port} (hdirection : x.direction = .outgoing)
    (hports : allLeftOut ports = false) (pods : List Pod)
    (v : Service) :
    (Resolver.serviceRules (Rule.templates action (portMatches ports)) query pods v).any x.fits =
      (v.fronts query pods && v.clusterIp.any x.meets && somePort ports (·.admitsThrough v x)) := by
  unfold Resolver.serviceRules
  rcases v.clusterIp with _ | ip
  · simp
  · dsimp only
    split
    · rename_i hfronts
      rw [← hdirection, any_fillAll (NetworkPolicy.placeless_seenThrough
          (Rule.placeless_templates _ _) v) x ip, NetworkPolicy.any_seenThrough v x action hports,
        hfronts, Option.any_some, Bool.true_and]
    · rename_i hfronts
      rw [Bool.eq_false_iff.2 hfronts, Bool.false_and, Bool.false_and, List.any_nil]

/-- The rules for pods match the packets that go to one of them, or to one of
their services. -/
theorem any_rulesFor {s : PeerSelector} {home : String} {ports : List Port}
    (hports : allLeftOut ports = false)
    (hasks : s.AsksFor home query namespaces) :
    (x.resolver.rulesFor x.direction (Rule.templates action (portMatches ports)) query
        (x.resolver.cluster.spaces namespaces)
        ((x.resolver.cluster.spaces namespaces).flatMap fun n =>
          x.resolver.cluster.known query n.name)).any x.fits =
      (somePort ports (·.admits x) && s.reachesPod x home || s.reachesService x home ports) := by
  have hspaces (test : Namespace → Bool) : (x.resolver.cluster.spaces namespaces).any test =
      (x.resolver.cluster.namespaces.list fun _ => true).any fun n =>
        s.selectsSpace home n.object.body && test n.object.body := by
    rw [Cluster.spaces, List.any_filter, List.any_map]
    simp only [Function.comp_def, hasks.spaces]
  have hknown (n : Namespace) (test : Pod → Bool) : (x.resolver.cluster.known query n.name).any test =
      (x.resolver.cluster.pods.list (Cluster.livesIn n.name)).any fun p =>
        s.selectsPod p.object.body && test p.object.body := by
    rw [Cluster.known, List.any_filter, List.any_map]
    simp only [Function.comp_def, hasks.pods]
  have hdirect : (((x.resolver.cluster.spaces namespaces).flatMap fun n =>
      x.resolver.cluster.known query n.name).flatMap fun p =>
        (Resolver.podAddresses x.resolver.range x.direction p).flatMap
          (Resolver.fillAll x.direction (Rule.templates action (portMatches ports)))).any x.fits =
      (somePort ports (·.admits x) && s.reachesPod x home) := by
    simp only [List.any_flatMap, any_fillAll (Rule.placeless_templates _ _), any_templates,
      NetworkPolicy.fitsSome_portMatches x hports, hspaces, hknown]
    rw [PeerSelector.reachesPod]
    cases somePort ports (·.admits x)
    · simp
    · simp
  unfold Resolver.rulesFor
  rw [PeerSelector.reachesService]
  rcases hdirection : x.direction with _ | _
  · rw [hdirection] at hdirect
    rw [hdirect]
    simp
  · rw [hdirection] at hdirect
    dsimp only
    rw [List.any_append, hdirect]
    congr 1
    simp only [List.any_flatMap, List.any_map, Function.comp_def,
      any_serviceRules hdirection hports, hspaces, hasks.services]
    simp

/-! ### Records -/

def verdictOf? (x : Crossing α) (record : Record) : Option RuleAction :=
  match x.resolver.resolve record with
  | .ok rules => x.verdict? rules
  | .error _ => none

/-- The first record with a verdict decides. -/
theorem verdict?_flatten {records : List Record} {lists : List (List Rule)}
    (h : records.mapM x.resolver.resolve = .ok lists) :
    x.verdict? lists.flatten = records.findSome? x.verdictOf? ∧
      ∀ record ∈ records, ∃ rules, x.resolver.resolve record = .ok rules := by
  induction records generalizing lists with
  | nil =>
    rw [List.mapM_nil] at h
    rw [← Except.ok.inj h]
    exact ⟨rfl, List.forall_mem_nil _⟩
  | cons record rest ih =>
    rw [List.mapM_cons] at h
    rcases hrecord : x.resolver.resolve record with e | rules
    · rw [hrecord] at h
      cases h
    · rcases hrest : rest.mapM x.resolver.resolve with e | more
      · rw [hrecord, hrest] at h
        cases h
      · rw [hrecord, hrest] at h
        obtain ⟨hverdict, hall⟩ := ih hrest
        refine ⟨?_, List.forall_mem_cons.2 ⟨⟨rules, hrecord⟩, hall⟩⟩
        have hfirst : x.verdictOf? record = x.verdict? rules := by rw [verdictOf?, hrecord]
        rw [← Except.ok.inj h, List.flatten_cons, verdict?_append, hverdict, List.findSome?_cons,
          hfirst]
        cases x.verdict? rules <;> rfl

variable {record : Record} {ports : List PortMatch}

theorem verdictOf?_forwardAll (haction : record.action = .forwardAll)
    (htemplates : record.templates = Rule.templates .forward ports) :
    x.verdictOf? record = if x.fitsSome ports then some .forward else none := by
  have hresolve : x.resolver.resolve record = .ok (Rule.templates .forward ports) := by
    rw [Resolver.resolve, haction, htemplates]
    rfl
  rw [verdictOf?, hresolve]
  dsimp only
  rw [verdict?_of_action Rule.action_of_mem_templates, any_templates]

theorem verdictOf?_networks {texts : List String} (haction : record.action = .ofRule action)
    (hpeer : record.peer = some (.networks texts))
    (htemplates : record.templates = Rule.templates action ports)
    (hdirection : record.direction = x.direction) :
    x.verdictOf? record =
      if texts.any x.meets && x.fitsSome ports then some action else none := by
  have hresolve : x.resolver.resolve record = .ok (texts.flatMap
      (Resolver.fillAll x.direction (Rule.templates action ports))).eraseDups := by
    have hpart : record.action.isAll = false := by rw [haction]; cases action <;> rfl
    rw [Resolver.resolve, if_neg (Bool.eq_false_iff.1 hpart), hpeer, htemplates, hdirection]
  have hsame : ∀ rule ∈ (texts.flatMap
      (Resolver.fillAll x.direction (Rule.templates action ports))).eraseDups,
      rule.action = action := by
    intro rule hrule
    obtain ⟨text, -, hrule⟩ := List.mem_flatMap.1 (List.mem_eraseDups.1 hrule)
    exact action_of_mem_fillAll Rule.action_of_mem_templates rule hrule
  rw [verdictOf?, hresolve]
  dsimp only
  rw [verdict?_of_action hsame, any_eraseDups, List.any_flatMap]
  simp only [any_fillAll (Rule.placeless_templates _ _), any_templates]
  congr 2
  cases x.fitsSome ports <;> simp

theorem verdictOf?_pods {s : PeerSelector} {home : String} {ports : List Port}
    (hports : allLeftOut ports = false)
    (hasks : s.AsksFor home query namespaces) (haction : record.action = .forward)
    (hpeer : record.peer = some (.pods query namespaces))
    (htemplates : record.templates = Rule.templates .forward (portMatches ports))
    (hdirection : record.direction = x.direction)
    (hok : ∃ rules, x.resolver.resolve record = .ok rules) :
    x.verdictOf? record =
      if somePort ports (·.admits x) && s.reachesPod x home || s.reachesService x home ports then
        some .forward
      else none := by
  obtain ⟨rules, hrules⟩ := hok
  rw [verdictOf?, hrules]
  dsimp only
  have hpart : record.action.isAll = false := by rw [haction]; rfl
  rw [Resolver.resolve, if_neg (Bool.eq_false_iff.1 hpart), hpeer, htemplates, hdirection] at hrules
  dsimp only at hrules
  split at hrules
  · rename_i found hfound
    obtain rfl := Resolver.resolvePods_ok hfound
    obtain rfl := Except.ok.inj hrules
    have hsame : ∀ rule ∈ (x.resolver.rulesFor x.direction
        (Rule.templates .forward (portMatches ports)) query (x.resolver.cluster.spaces namespaces)
        ((x.resolver.cluster.spaces namespaces).flatMap fun n =>
          x.resolver.cluster.known query n.name)).eraseDups, rule.action = .forward :=
      fun rule hrule =>
        action_of_mem_rulesFor Rule.action_of_mem_templates _ _ rule (List.mem_eraseDups.1 hrule)
    rw [verdict?_of_action hsame, any_eraseDups, any_rulesFor hports hasks]
  · cases hrules

end Crossing

/-! ### Policies -/

namespace NetworkPolicy

open Record (Header Entry ofEntry ofRules)

variable {x : Crossing α} {h : Header} {home : String}

/-- Lists that follow each other decide like what each of them decides. -/
theorem findSome?_flatMap {β γ δ : Type} {f : β → List γ} {decide : γ → Option δ}
    {answer : β → Option δ} {l : List β} (hanswer : ∀ b ∈ l, (f b).findSome? decide = answer b) :
    (l.flatMap f).findSome? decide = l.findSome? answer := by
  induction l with
  | nil => rfl
  | cons b rest ih =>
    obtain ⟨hb, hrest⟩ := List.forall_mem_cons.1 hanswer
    rw [List.flatMap_cons, List.findSome?_append, hb, ih hrest, List.findSome?_cons]
    cases answer b <;> rfl

theorem checkNetworks_cases (texts : List String) :
    Peer.checkNetworks texts = .ok () ∧ texts.all (fun t => (Cidr.parseNetwork t).isOk) = true ∨
      (∃ e, Peer.checkNetworks texts = .error e) ∧
        texts.all (fun t => (Cidr.parseNetwork t).isOk) = false := by
  induction texts with
  | nil => exact .inl ⟨rfl, rfl⟩
  | cons text rest ih =>
    unfold Peer.checkNetworks Peer.checkNetwork
    rw [List.all_cons]
    rcases Cidr.parseNetwork text with e | net
    · exact .inr ⟨⟨_, rfl⟩, rfl⟩
    · simpa [Except.isOk, Except.toBool] using ih

theorem ofBlock_cases (b : IpBlock) :
    Peer.ofBlock b = .ok (if b.except.isEmpty then none else some (.networks b.except),
        .networks [b.cidr]) ∧ b.isUsable = true ∨
      (∃ e, Peer.ofBlock b = .error e) ∧ b.isUsable = false := by
  unfold Peer.ofBlock IpBlock.isUsable
  rcases checkNetworks_cases (b.cidr :: b.except) with ⟨hcheck, husable⟩ | ⟨⟨e, hcheck⟩, husable⟩
  · exact .inl ⟨by rw [hcheck], husable⟩
  · exact .inr ⟨⟨e, by rw [hcheck]⟩, husable⟩

theorem entries_of_ok {s : PeerSelector} {except : Option Peer} {peer : Peer}
    (hpeers : s.peers home = .ok (except, peer)) (ports : List PortMatch) :
    s.entries home ports =
      except.toList.map (fun e => ⟨.drop, some e, Rule.templates .drop ports⟩) ++
        [⟨.forward, some peer, Rule.templates .forward ports⟩] := by
  rw [PeerSelector.entries, hpeers]

theorem entries_of_error {s : PeerSelector} {e : PeerError} (hpeers : s.peers home = .error e)
    (ports : List PortMatch) : s.entries home ports = [] := by
  rw [PeerSelector.entries, hpeers]

/-- What the entries of a block do with the packet is what the block says. -/
theorem findSome?_entries_block {s : PeerSelector} {b : IpBlock} {ports : List Port}
    (hports : allLeftOut ports = false)
    (hblock : s.ipBlock = some b) :
    (s.entries home (portMatches ports)).findSome? (fun e =>
        x.verdictOf? (ofEntry h x.direction 0 0 e)) =
      s.verdict? x home ports := by
  have hfits := fitsSome_portMatches x hports
  have hexcept : x.verdictOf? (ofEntry h x.direction 0 0
      ⟨.drop, some (.networks b.except), Rule.templates .drop (portMatches ports)⟩) =
      if b.except.any x.meets && somePort ports (·.admits x) then some .drop else none := by
    rw [← hfits]
    exact Crossing.verdictOf?_networks rfl rfl rfl rfl
  have hself : x.verdictOf? (ofEntry h x.direction 0 0
      ⟨.forward, some (.networks [b.cidr]), Rule.templates .forward (portMatches ports)⟩) =
      if x.meets b.cidr && somePort ports (·.admits x) then some .forward else none := by
    have hone : [b.cidr].any x.meets = x.meets b.cidr := by
      rw [List.any_cons, List.any_nil, Bool.or_false]
    rw [← hfits, ← hone]
    exact Crossing.verdictOf?_networks rfl rfl rfl rfl
  have hpeers : s.peers home = Peer.ofBlock b := by rw [PeerSelector.peers, hblock]
  rw [PeerSelector.verdict?, hblock]
  dsimp only
  rcases ofBlock_cases b with ⟨hok, husable⟩ | ⟨⟨e, herror⟩, husable⟩
  · rw [entries_of_ok (hpeers.trans hok), husable, Bool.true_and, List.findSome?_append,
      List.findSome?_cons, hself, List.findSome?_nil]
    by_cases hempty : b.except.isEmpty = true
    · rw [if_pos hempty, List.isEmpty_iff.1 hempty]
      cases somePort ports (·.admits x) <;> cases x.meets b.cidr <;> rfl
    · rw [if_neg hempty, Option.toList_some, List.map_cons, List.map_nil, List.findSome?_cons,
        hexcept, List.findSome?_nil]
      cases somePort ports (·.admits x) <;> cases b.except.any x.meets <;>
        cases x.meets b.cidr <;> rfl
  · rw [entries_of_error (hpeers.trans herror), husable]
    rfl

/-- What the entries of a peer do with the packet is what the peer says. -/
theorem findSome?_entries {s : PeerSelector} {ports : List Port}
    (hports : allLeftOut ports = false)
    (hok : ∀ e ∈ s.entries home (portMatches ports),
      ∃ rules, x.resolver.resolve (ofEntry h x.direction 0 0 e) = .ok rules) :
    (s.entries home (portMatches ports)).findSome? (fun e =>
        x.verdictOf? (ofEntry h x.direction 0 0 e)) =
      s.verdict? x home ports := by
  rcases hblock : s.ipBlock with _ | b
  · have hpeers : s.peers home =
        (Peer.ofSelectors s.pods s.namespaces home).map (none, ·) := by
      rw [PeerSelector.peers, hblock]
    rw [PeerSelector.verdict?, hblock]
    dsimp only
    rcases s.ofSelectors_cases home with ⟨⟨query, spaces, hpeer, hasks⟩, hs⟩ | ⟨⟨e, herror⟩, hs⟩
    · rw [hpeer] at hpeers
      rw [entries_of_ok hpeers] at hok ⊢
      have hself := Crossing.verdictOf?_pods hports hasks rfl rfl rfl rfl
        (hok _ (List.mem_singleton_self _))
      rw [Option.toList_none, List.map_nil, List.nil_append, List.findSome?_singleton, hself, hs,
        Bool.true_and]
    · rw [herror] at hpeers
      rw [entries_of_error hpeers, hs]
      rfl
  · exact findSome?_entries_block hports hblock

/-- A peer of a rule all of whose ports are left out says nothing. -/
theorem verdict?_of_allLeftOut {ports : List Port} (hports : allLeftOut ports = true)
    (s : PeerSelector) : s.verdict? x home ports = none := by
  have hadmits : somePort ports (·.admits x) = false :=
    somePort_of_allLeftOut hports (any_match?_fitsPorts x)
  have hthrough (v : Service) : somePort ports (·.admitsThrough v x) = false :=
    somePort_of_allLeftOut hports (any_match?_throughPorts v x .forward)
  have hservice : s.reachesService x home ports = false := by
    simp [PeerSelector.reachesService, hthrough]
  rw [PeerSelector.verdict?, hadmits, hservice]
  rcases s.ipBlock with _ | b <;> simp

/-- What the entries of a rule do with the packet is what the rule says. -/
theorem findSome?_rule {r : PolicyRule}
    (hok : ∀ e ∈ r.entries home,
      ∃ rules, x.resolver.resolve (ofEntry h x.direction 0 0 e) = .ok rules) :
    (r.entries home).findSome? (fun e => x.verdictOf? (ofEntry h x.direction 0 0 e)) =
      r.verdict? x home := by
  have hentries : r.entries home = if allLeftOut r.ports then []
      else if r.peers.isEmpty then
        [⟨.forwardAll, none, Rule.templates .forward (portMatches r.ports)⟩]
      else r.peers.flatMap fun p => p.entries home (portMatches r.ports) := rfl
  rw [PolicyRule.verdict?]
  rcases hports : allLeftOut r.ports with _ | _
  · rw [hports, if_neg Bool.false_ne_true] at hentries
    by_cases hpeers : r.peers.isEmpty = true
    · rw [if_pos hpeers] at hentries
      rw [hentries, if_pos hpeers, List.findSome?_singleton, ← fitsSome_portMatches x hports]
      exact Crossing.verdictOf?_forwardAll rfl rfl
    · rw [if_neg hpeers] at hentries
      rw [hentries] at hok ⊢
      rw [if_neg hpeers]
      exact findSome?_flatMap fun s hs =>
        findSome?_entries hports fun e he => hok e (List.mem_flatMap.2 ⟨s, hs, he⟩)
  · rw [hports, if_pos rfl] at hentries
    rw [hentries, List.findSome?_nil]
    by_cases hpeers : r.peers.isEmpty = true
    · rw [if_pos hpeers, somePort_of_allLeftOut hports (any_match?_fitsPorts x)]
      rfl
    · rw [if_neg hpeers, eq_comm, List.findSome?_eq_none_iff]
      exact fun s _ => verdict?_of_allLeftOut hports s

/-- The records of a direction are its entries, each with some numbers; without
an entry there is a record without rules. -/
theorem ofRules_cases (h : Header) (d : Direction) (rules : List (List Entry)) :
    rules.flatten = [] ∧ ofRules h d rules = [ofEntry h d 0 0 Record.nothing] ∨
      ∃ numbered : List ((Nat × Entry) × Nat), numbered.map (·.1.2) = rules.flatten ∧
        ofRules h d rules = numbered.map fun e => ofEntry h d e.1.1 e.2 e.1.2 := by
  have hflat (n : Nat) : (((rules.zipIdx n).flatMap fun r => r.1.map fun e => (r.2, e)).map
      Prod.snd) = rules.flatten := by
    induction rules generalizing n with
    | nil => rfl
    | cons first rest ih =>
      rw [List.zipIdx_cons, List.flatMap_cons, List.map_append, ih, List.flatten_cons,
        List.map_map]
      congr 1
      exact List.map_id _
  unfold ofRules
  dsimp only
  split
  · rename_i hnone
    exact .inl ⟨by rw [← hflat 0, hnone]; rfl, rfl⟩
  · refine .inr ⟨_, ?_, rfl⟩
    rw [← hflat 0]
    exact List.map_map.symm.trans (congrArg (List.map Prod.snd) (List.zipIdx_map_fst _ _))

/-- The numbers of an entry do not matter for its rules. -/
theorem resolve_ofEntry (r : Resolver) (h : Header) (d : Direction) (rule number : Nat)
    (e : Entry) : r.resolve (ofEntry h d rule number e) = r.resolve (ofEntry h d 0 0 e) := rfl

/-- The records of a direction decide like its entries, one after the other. -/
theorem findSome?_ofRules (x : Crossing α) (h : Header) (rules : List (List Entry)) :
    (ofRules h x.direction rules).findSome? x.verdictOf? =
      rules.flatten.findSome? (fun e => x.verdictOf? (ofEntry h x.direction 0 0 e)) := by
  rcases ofRules_cases h x.direction rules with ⟨hnone, hrecords⟩ | ⟨numbered, hflat, hrecords⟩
  · rw [hnone, hrecords]
    rfl
  · rw [hrecords, ← hflat, List.findSome?_map, List.findSome?_map]
    simp only [Function.comp_def, Crossing.verdictOf?, resolve_ofEntry]

theorem resolve_ofRules {d : Direction} {r : Resolver} {rules : List (List Entry)}
    (hok : ∀ record ∈ ofRules h d rules, ∃ found, r.resolve record = .ok found) :
    ∀ e ∈ rules.flatten, ∃ found, r.resolve (ofEntry h d 0 0 e) = .ok found := by
  rcases ofRules_cases h d rules with ⟨hnone, -⟩ | ⟨numbered, hflat, hrecords⟩
  · rw [hnone]
    exact List.forall_mem_nil _
  · rw [← hflat]
    intro e he
    obtain ⟨entry, hentry, rfl⟩ := List.mem_map.1 he
    rw [← resolve_ofEntry r h d entry.1.1 entry.2]
    exact hok _ (by rw [hrecords]; exact List.mem_map.2 ⟨entry, hentry, rfl⟩)

end NetworkPolicy

/-- The rules that a policy comes to for a direction, in order; `none` if it has
no records or they cannot be resolved yet. -/
def Resolver.rulesOf? (r : Resolver) (p : NetworkPolicy) (d : Direction) : Option (List Rule) := do
  let records ← (NetworkPolicy.records p).toOption
  let lists ← ((records.filter (·.direction == d)).mapM r.resolve).toOption
  return lists.flatten

namespace NetworkPolicy

theorem direction_of_mem_directionRecords {p : NetworkPolicy} {h : Record.Header} {d : Direction} :
    ∀ record ∈ directionRecords p h d, record.direction = d := by
  intro record hrecord
  unfold directionRecords at hrecord
  split at hrecord
  · rcases Record.mem_ofRules hrecord with rfl | ⟨_, _, _, _, -, -, rfl⟩ <;> rfl
  · cases hrecord

/-- The records of a policy for a direction. -/
theorem filter_records {p : NetworkPolicy} {records : List Record}
    (h : NetworkPolicy.records p = .ok records) (d : Direction) :
    ∃ head : Record.Header, head.subject.namespaceName = home p ∧
      records.filter (·.direction == d) = directionRecords p head d := by
  obtain ⟨head, hhead, rfl⟩ := records_ok h
  have hhome : p.metadata.namespaceName = some head.subject.namespaceName := hhead.namespaceName
  refine ⟨head, by rw [home, hhome, Option.getD_some], ?_⟩
  have hself (d' : Direction) : (directionRecords p head d').filter (·.direction == d) =
      if d' = d then directionRecords p head d' else [] := by
    split
    · rename_i hd
      refine List.filter_eq_self.2 fun record hrecord => ?_
      rw [direction_of_mem_directionRecords record hrecord, hd]
      exact beq_self_eq_true d
    · rename_i hd
      refine List.filter_eq_nil_iff.2 fun record hrecord => ?_
      rw [direction_of_mem_directionRecords record hrecord, beq_iff_eq]
      exact hd
  rw [List.filter_flatMap]
  simp only [hself]
  cases d <;> simp [Direction.all]

/-- The rules of a policy do with a packet what the policy says. -/
theorem verdict?_rulesOf {x : Crossing α} {p : NetworkPolicy} {rules : List Rule}
    (h : x.resolver.rulesOf? p x.direction = some rules) : x.verdict? rules = p.verdict? x := by
  unfold Resolver.rulesOf? at h
  rcases hrecords : NetworkPolicy.records p with e | records
  · rw [hrecords] at h
    cases h
  · rcases hlists : (records.filter (·.direction == x.direction)).mapM x.resolver.resolve with
      e | lists
    · rw [hrecords] at h
      simp [Except.toOption, hlists] at h
    · obtain rfl : lists.flatten = rules := by
        rw [hrecords] at h
        simpa [Except.toOption, hlists] using h
      obtain ⟨head, hhome, hfilter⟩ := filter_records hrecords x.direction
      obtain ⟨hverdict, hok⟩ := Crossing.verdict?_flatten hlists
      rw [hfilter] at hverdict hok
      rw [hverdict, NetworkPolicy.verdict?]
      unfold directionRecords at hok ⊢
      split
      · rename_i hrestricts
        rw [if_pos hrestricts] at hok
        have hentries := resolve_ofRules hok
        rw [findSome?_ofRules, ← List.flatMap_def]
        refine findSome?_flatMap fun rule hrule => ?_
        rw [← hhome]
        exact findSome?_rule fun e he => hentries e (List.mem_flatten.2
          ⟨_, List.mem_map.2 ⟨rule, hrule, rfl⟩, he⟩)
      · rfl

end NetworkPolicy

end PodFirewall
