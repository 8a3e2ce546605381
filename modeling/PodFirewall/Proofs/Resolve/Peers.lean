import PodFirewall.Proofs.Resolve.Locality
import PodFirewall.Proofs.Resolve.Twins
import PodFirewall.Proofs.Rule.Verdict

/-!
The peers of a record. What a record reaches is said object by object: the live
pods that its query matches, in the known namespaces that its other query matches,
under their own address and, for incoming traffic, under their virtual one; for
outgoing traffic also the services in front of such pods. Resolving a record
gives the rules for these, all of them and no other, and each of them once.
-/

namespace PodFirewall

namespace Cluster

structure IsSpace (c : Cluster) (namespaces : Option Query) (n : Namespace) : Prop where
  known : ∃ key v, c.namespaces.get? key = some v ∧ v.object.body = n
  allowed : Query.allows namespaces n.name n.labels = true

/-- Whether a pod with an address runs and is not on its way out, and one query
matches it and another its namespace, which is known. -/
structure IsPeer (c : Cluster) (query namespaces : Option Query) (p : Pod) : Prop where
  running : p.running = true
  stays : p.terminating = false
  addressed : p.ip ≠ none
  allowed : Query.allows query p.name p.labels = true
  housed : ∃ key v n, c.pods.get? key = some v ∧ v.object.body = p ∧
    v.object.metadata.namespaceName = some n.name ∧ c.IsSpace namespaces n

structure Fronts (c : Cluster) (query namespaces : Option Query) (s : Service) : Prop where
  selects : s.selector.isEmpty = false
  labels : ∀ l, query = some (.labels l) → s.selector.contained l = true
  name : ∀ n, query = some (.name n) → ∃ p, c.IsPeer query namespaces p ∧
    p.namespaceName = s.namespaceName ∧ s.selector.contained p.labels = true

variable {c : Cluster} {query namespaces : Option Query}

theorem mem_spaces_iff {n : Namespace} : n ∈ c.spaces namespaces ↔ c.IsSpace namespaces n := by
  rw [spaces, List.mem_filter, List.mem_map]
  constructor
  · rintro ⟨⟨v, hv, rfl⟩, hallowed⟩
    obtain ⟨⟨key, hkey⟩, -⟩ := Store.mem_list.1 hv
    exact ⟨⟨key, v, hkey, rfl⟩, hallowed⟩
  · rintro ⟨⟨key, v, hkey, rfl⟩, hallowed⟩
    exact ⟨⟨v, Store.mem_list.2 ⟨⟨key, hkey⟩, rfl⟩, rfl⟩, hallowed⟩

theorem livesIn_iff {α : Type} {ns : String} {o : Kube.Object α} :
    livesIn ns o = true ↔ o.metadata.namespaceName = some ns := beq_iff_eq

theorem mem_served_iff {ns : String} {s : Service} :
    s ∈ c.served ns ↔ ∃ key v, c.services.get? key = some v ∧ v.object.body = s ∧
      v.object.metadata.namespaceName = some ns := by
  rw [served, List.mem_map]
  constructor
  · rintro ⟨v, hv, rfl⟩
    obtain ⟨⟨key, hkey⟩, hlives⟩ := Store.mem_list.1 hv
    exact ⟨key, v, hkey, rfl, livesIn_iff.1 hlives⟩
  · rintro ⟨key, v, hkey, rfl, hlives⟩
    exact ⟨v, Store.mem_list.2 ⟨⟨key, hkey⟩, livesIn_iff.2 hlives⟩, rfl⟩

theorem live_iff {p : Pod} :
    p.live = true ↔ p.running = true ∧ p.ip ≠ none ∧ p.terminating = false := by
  simp [Pod.live, Option.isSome_iff_ne_none, and_assoc]

/-- The pods that are found in the namespaces asked for. -/
theorem mem_known_iff {p : Pod} :
    p ∈ (c.spaces namespaces).flatMap (fun n => c.known query n.name) ↔
      c.IsPeer query namespaces p := by
  simp only [List.mem_flatMap, mem_spaces_iff, known, List.mem_filter, List.mem_map,
    Store.mem_list, livesIn_iff, Bool.and_eq_true, live_iff]
  constructor
  · rintro ⟨n, hn, ⟨v, ⟨⟨key, hkey⟩, hlives⟩, hbody⟩, ⟨hruns, haddress, hstays⟩, hallowed⟩
    exact ⟨hruns, hstays, haddress, hallowed, key, v, n, hkey, hbody, hlives, hn⟩
  · rintro ⟨hruns, hstays, haddress, hallowed, key, v, n, hkey, hbody, hlives, hn⟩
    exact ⟨n, hn, ⟨v, ⟨⟨key, hkey⟩, hlives⟩, hbody⟩, ⟨hruns, haddress, hstays⟩, hallowed⟩

/-- A service is in front of the pods that are found if it is in front of pods that
the query asks for. -/
theorem fronts_iff {s : Service} :
    s.fronts query ((c.spaces namespaces).flatMap fun n => c.known query n.name) = true ↔
      c.Fronts query namespaces s := by
  rw [Service.fronts.eq_def, Bool.and_eq_true, Bool.not_eq_true']
  rcases query with _ | name | l
  · exact ⟨fun h => ⟨h.1, nofun, nofun⟩, fun h => ⟨h.selects, rfl⟩⟩
  · simp only [List.any_eq_true, mem_known_iff, Bool.and_eq_true, beq_iff_eq]
    constructor
    · rintro ⟨hselects, p, hp, ⟨hhome, -⟩, hlabels⟩
      exact ⟨hselects, nofun, fun _ _ => ⟨p, hp, hhome, hlabels⟩⟩
    · intro h
      obtain ⟨p, hp, hhome, hlabels⟩ := h.name name rfl
      have hname : p.name = name := (beq_iff_eq.1 hp.allowed).symm
      exact ⟨h.selects, p, hp, ⟨hhome, hname⟩, hlabels⟩
  · constructor
    · rintro ⟨hselects, hlabels⟩
      refine ⟨hselects, fun l' hl => ?_, nofun⟩
      obtain rfl : l = l' := by simpa using hl
      exact hlabels
    · exact fun h => ⟨h.selects, h.labels l rfl⟩

end Cluster

def Rule.withRemote (r : Rule) (direction : Direction) (address : String) : Rule :=
  match direction with
  | .incoming => { r with src := some address }
  | .outgoing => { r with dst := some address }

theorem Rule.fillPeer_eq (r : Rule) (direction : Direction) (address : String) :
    r.fillPeer direction address = r.withRemote direction address := by
  cases direction <;> rfl

namespace Resolver

/-- What a record for pods reaches: each live pod that it asks for; for incoming
traffic also its virtual address, if it has an IPv4 address; for outgoing traffic
also each service in front of such pods. -/
inductive Reaches (r : Resolver) (record : Record) (query namespaces : Option Query) :
    Rule → Prop
  | pod {p : Pod} {ip : String} {t : Rule} (hp : r.cluster.IsPeer query namespaces p)
      (hip : p.ip = some ip) (ht : t ∈ record.templates) :
      Reaches r record query namespaces (t.withRemote record.direction ip)
  | virtual {p : Pod} {ip : String} {a : Ipv4} {range : Ipv4Range} {t : Rule}
      (hd : record.direction = .incoming) (hrange : r.range = some range)
      (hp : r.cluster.IsPeer query namespaces p) (hip : p.ip = some ip)
      (ha : Ipv4.parse? ip = some a) (ht : t ∈ record.templates) :
      Reaches r record query namespaces (t.withRemote .incoming (range.withHostOf a).text)
  | service {n : Namespace} {key : ObjectKey} {v : Stored Service} {ip : String} {t : Rule}
      (hd : record.direction = .outgoing) (hn : r.cluster.IsSpace namespaces n)
      (hv : r.cluster.services.get? key = some v)
      (hlives : v.object.metadata.namespaceName = some n.name)
      (hfronts : r.cluster.Fronts query namespaces v.object.body)
      (hip : v.object.body.clusterIp = some ip)
      (ht : t ∈ v.object.body.seenThrough record.templates) :
      Reaches r record query namespaces (t.withRemote .outgoing ip)

variable {r : Resolver} {record : Record} {query namespaces : Option Query} {rule : Rule}

theorem mem_fillAll_iff {d : Direction} {templates : List Rule} {address : String} :
    rule ∈ fillAll d templates address ↔ ∃ t ∈ templates, rule = t.withRemote d address := by
  simp only [fillAll, List.mem_map, Rule.fillPeer_eq, eq_comm]

theorem mem_podAddresses_iff {range : Option Ipv4Range} {d : Direction} {p : Pod}
    {address : String} :
    address ∈ podAddresses range d p ↔
      p.ip = some address ∨
        d = .incoming ∧ ∃ ip a v, range = some v ∧ p.ip = some ip ∧ Ipv4.parse? ip = some a ∧
          address = (v.withHostOf a).text := by
  unfold podAddresses
  rcases p.ip with _ | ip
  · simp
  · rcases d with _ | _
    · rcases range with _ | v
      · simp [eq_comm]
      · rcases hparse : Ipv4.parse? ip with _ | a
        · simp [Ipv4Range.virtualText, hparse, eq_comm]
        · simp [Ipv4Range.virtualText, hparse, @eq_comm _ ip]
    · simp [eq_comm]

theorem mem_serviceRules_iff {templates : List Rule} {pods : List Pod} {s : Service} :
    rule ∈ serviceRules templates query pods s ↔
      ∃ ip, s.clusterIp = some ip ∧ s.fronts query pods = true ∧
        ∃ t ∈ s.seenThrough templates, rule = t.withRemote .outgoing ip := by
  unfold serviceRules
  rcases s.clusterIp with _ | ip
  · simp
  · cases s.fronts query pods <;> simp [mem_fillAll_iff]

/-- The rules for pods are those for their addresses and, for outgoing traffic,
those for the services of the namespaces. -/
theorem mem_rulesFor_iff {d : Direction} {templates : List Rule} {spaces : List Namespace}
    {pods : List Pod} :
    rule ∈ r.rulesFor d templates query spaces pods ↔
      (∃ p ∈ pods, ∃ address ∈ podAddresses r.range d p, ∃ t ∈ templates,
        rule = t.withRemote d address) ∨
      d = .outgoing ∧ ∃ n ∈ spaces, ∃ s ∈ r.cluster.served n.name,
        rule ∈ serviceRules templates query pods s := by
  have hdirect : rule ∈ pods.flatMap (fun p =>
      (podAddresses r.range d p).flatMap (fillAll d templates)) ↔
        ∃ p ∈ pods, ∃ address ∈ podAddresses r.range d p, ∃ t ∈ templates,
          rule = t.withRemote d address := by
    simp only [List.mem_flatMap, mem_fillAll_iff]
  rw [← hdirect]
  cases d with
  | incoming => simp [rulesFor]
  | outgoing =>
    simp only [rulesFor, List.mem_append, List.mem_flatMap, true_and, List.flatMap_assoc,
      Cluster.served]

/-- The rules for what is known are those for what a record reaches. -/
theorem mem_known_rules_iff :
    rule ∈ r.rulesFor record.direction record.templates query (r.cluster.spaces namespaces)
        ((r.cluster.spaces namespaces).flatMap fun n => r.cluster.known query n.name) ↔
      r.Reaches record query namespaces rule := by
  rw [mem_rulesFor_iff]
  constructor
  · rintro (⟨p, hp, address, haddress, t, ht, rfl⟩ | ⟨hd, n, hn, s, hs, hrule⟩)
    · have hp := Cluster.mem_known_iff.1 hp
      rcases mem_podAddresses_iff.1 haddress with hip | ⟨hd, ip, a, v, hrange, hip, ha, rfl⟩
      · exact .pod hp hip ht
      · rw [hd]
        exact .virtual hd hrange hp hip ha ht
    · obtain ⟨key, v, hv, rfl, hlives⟩ := Cluster.mem_served_iff.1 hs
      obtain ⟨ip, hip, hfronts, t, ht, rfl⟩ := mem_serviceRules_iff.1 hrule
      exact .service hd (Cluster.mem_spaces_iff.1 hn) hv hlives (Cluster.fronts_iff.1 hfronts)
        hip ht
  · rintro (⟨hp, hip, ht⟩ | ⟨hd, hrange, hp, hip, ha, ht⟩ |
      ⟨hd, hn, hv, hlives, hfronts, hip, ht⟩)
    · exact .inl ⟨_, Cluster.mem_known_iff.2 hp, _, mem_podAddresses_iff.2 (.inl hip), _, ht, rfl⟩
    · refine .inl ⟨_, Cluster.mem_known_iff.2 hp, _,
        mem_podAddresses_iff.2 (.inr ⟨hd, _, _, _, hrange, hip, ha, rfl⟩), _, ht, ?_⟩
      rw [hd]
    · exact .inr ⟨hd, _, Cluster.mem_spaces_iff.2 hn, _,
        Cluster.mem_served_iff.2 ⟨_, _, hv, rfl, hlives⟩,
        mem_serviceRules_iff.2 ⟨_, hip, Cluster.fronts_iff.2 hfronts, _, ht, rfl⟩⟩

/-- Resolving a record for pods fails if a store that it asks is not ready, with
the first such store. If all stores are ready it succeeds, and the rules are those
for what the record reaches, each of them once. -/
theorem resolve_reaches (hpeer : record.peer = some (.pods query namespaces))
    (hall : record.action.isAll = false) :
    (∀ e, r.resolve record = .error e ↔
        r.cluster.missing? record.direction namespaces = some e) ∧
      (r.cluster.Ready → ∃ rules, r.resolve record = .ok rules ∧ rules.Nodup ∧
        ∀ rule, rule ∈ rules ↔ r.Reaches record query namespaces rule) := by
  have hmissing (e : NotReady) (h : r.cluster.missing? record.direction namespaces = some e) :
      r.resolve record = .error e := by
    rw [resolve, if_neg (by simp [hall]), hpeer]
    dsimp only
    rw [resolvePods_eq_missing, h]
  have hknown (h : r.cluster.missing? record.direction namespaces = none) :
      r.resolve record = .ok (r.rulesFor record.direction record.templates query
        (r.cluster.spaces namespaces)
        ((r.cluster.spaces namespaces).flatMap fun n => r.cluster.known query n.name)).eraseDups := by
    rw [resolve, if_neg (by simp [hall]), hpeer]
    dsimp only
    rw [resolvePods_eq_missing, h]
  refine ⟨fun e => ⟨fun he => ?_, hmissing e⟩, fun hready => ?_⟩
  · rcases h : r.cluster.missing? record.direction namespaces with _ | e'
    · rw [hknown h] at he
      cases he
    · rw [hmissing e' h] at he
      rw [Except.error.inj he]
  · refine ⟨_, hknown (hready.missing?_eq_none _ _), nodup_eraseDups _, fun rule => ?_⟩
    rw [List.mem_eraseDups, mem_known_rules_iff]

def db (name ip : String) (terminating : Bool) : Kube.Object Pod where
  metadata := ⟨some name, some "n", OrdMap.empty.insert "app" "db", none, none, terminating⟩
  body := ⟨name, "n", OrdMap.empty.insert "app" "db", some ip, none, true, false, terminating⟩

def dbService : Kube.Object Service where
  metadata := ⟨some "db", some "n", ∅, none, none, false⟩
  body := ⟨"db", "n", OrdMap.empty.insert "app" "db", some "10.96.0.20",
    [⟨"TCP", 80, some 5432⟩]⟩

/-- A resolver for a cluster with two such pods, one of them on its way out, and
the service. -/
def dbResolver : Resolver where
  cluster := {
    pods := .ofListing [db "db-0" "10.1.0.1" false, db "db-1" "10.1.0.2" true]
    namespaces := .ofListing [⟨⟨some "n", none, ∅, none, none, false⟩, ⟨"n", ∅⟩⟩]
    services := .ofListing [dbService] }
  range := none

def dbTemplate : Rule := (Rule.opening .forward).withPorts ⟨some .tcp, none, some 5432⟩

def toDb : Record :=
  Record.ofEntry ⟨⟨"web", defaultPriority, .pcn⟩, none, ⟨none, false, "n"⟩⟩ .outgoing 0 0
    ⟨.forward, some (.pods (some (.name "db-0")) (some (.name "n"))), [dbTemplate]⟩

theorem dbResolver_ready : dbResolver.cluster.Ready := ⟨rfl, rfl, rfl⟩

theorem isSpace_n : dbResolver.cluster.IsSpace (some (.name "n")) ⟨"n", ∅⟩ :=
  Cluster.mem_spaces_iff.1 (by decide +kernel)

theorem isPeer_db :
    dbResolver.cluster.IsPeer (some (.name "db-0")) (some (.name "n"))
      (db "db-0" "10.1.0.1" false).body :=
  Cluster.mem_known_iff.1 (by decide +kernel)

/-- The record reaches the pod by its address, and by that of the service in front
of it, whose port leads to the port of the template. -/
theorem resolve_reaches_of_named :
    toDb.peer = some (.pods (some (.name "db-0")) (some (.name "n"))) ∧
      toDb.action.isAll = false ∧ dbResolver.cluster.Ready ∧
      ∃ rules, dbResolver.resolve toDb = .ok rules ∧ rules.Nodup ∧
        { dbTemplate with dst := some "10.1.0.1" } ∈ rules ∧
        { dbTemplate with dst := some "10.96.0.20", dport := some 80 } ∈ rules := by
  have hpeer : toDb.peer = some (.pods (some (.name "db-0")) (some (.name "n"))) := rfl
  refine ⟨hpeer, rfl, dbResolver_ready, ?_⟩
  obtain ⟨-, hok⟩ := resolve_reaches (r := dbResolver) hpeer rfl
  obtain ⟨rules, hrules, hnodup, hmem⟩ := hok dbResolver_ready
  refine ⟨rules, hrules, hnodup, (hmem _).2 ?_, (hmem _).2 ?_⟩
  · exact .pod isPeer_db rfl List.mem_cons_self
  · have hfronts : dbResolver.cluster.Fronts (some (.name "db-0")) (some (.name "n"))
        dbService.body :=
      ⟨by decide, nofun, fun _ _ => ⟨_, isPeer_db, rfl, by decide +kernel⟩⟩
    have hstored : dbResolver.cluster.services.get? ⟨"n", "db"⟩ = some ⟨0, dbService⟩ := rfl
    have ht : { dbTemplate with dport := some 80 } ∈
        dbService.body.seenThrough toDb.templates := by decide +kernel
    have hreaches : dbResolver.Reaches toDb (some (.name "db-0")) (some (.name "n"))
        (Rule.withRemote { dbTemplate with dport := some 80 } .outgoing "10.96.0.20") :=
      .service rfl isSpace_n hstored rfl hfronts rfl ht
    exact hreaches

end Resolver

end PodFirewall
