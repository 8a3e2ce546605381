import PodFirewall.Proofs.Manager.Quiescence

/-!
What a refresh takes for the rules of a record. It resolves each name of a
namespace once and recalls what came out when it meets the name again, so a
record is applied with the rules of the first record of its name that is visited.
These are its own rules exactly if the two records resolve to the same rules,
which is so as long as all firewalls have the same version of every policy. But a
group that comes into being while a new version waits to be handled has the new
version, while the others still have the old one.
-/

namespace PodFirewall

/-- What is recalled while records are refreshed goes by the namespace of the
subject and the name. -/
def Record.recallKey (r : Record) : String × String := (r.subject.namespaceName, r.name)

structure Visit where
  group : PodGroup
  record : Record

/-- A visit in which the record is applied anew, with the rules that are passed. -/
structure Renewal extends Visit where
  rules : List Rule

def Renewal.perform (f : Fleet) (r : Renewal) : Fleet :=
  (Manager.attempt f r.group fun s => s.apply r.record r.rules).2

namespace Manager

/-! ### The course of a refresh -/

def recordRenewals (resolver : Resolver) (group : PodGroup) :
    List Record → Refresh → List Renewal
  | [], _ => []
  | record :: rest, r =>
    ((cached resolver record r).1.map fun rules => ⟨⟨group, record⟩, rules⟩).toList ++
      recordRenewals resolver group rest (refreshRecord resolver group r record)

def affectedIn (affected : Record → Bool) (f : Fleet) (group : PodGroup) : List Record :=
  match f.site? group with
  | none => []
  | some s => s.appliedRecords.filter affected

def groupRenewals (resolver : Resolver) (affected : Record → Bool) :
    List PodGroup → Refresh → List Renewal
  | [], _ => []
  | group :: rest, r =>
    recordRenewals resolver group (affectedIn affected r.fleet group) r ++
      groupRenewals resolver affected rest (refreshGroup resolver affected r group)

def renewals (m : Manager) (affected : Record → Bool) : List Renewal :=
  groupRenewals m.resolver affected m.fleet.groups.keys ⟨[], 0, m.fleet⟩

variable {m : Manager} {resolver : Resolver} {affected : Record → Bool} {group : PodGroup}
  {r : Refresh} {visited : List Visit}

theorem refreshGroup_eq (resolver : Resolver) (affected : Record → Bool) (r : Refresh)
    (group : PodGroup) : refreshGroup resolver affected r group =
      (affectedIn affected r.fleet group).foldl (refreshRecord resolver group) r := by
  unfold refreshGroup affectedIn
  cases r.fleet.site? group <;> rfl

theorem fleet_refreshRecord (resolver : Resolver) (group : PodGroup) (r : Refresh)
    (record : Record) : (refreshRecord resolver group r record).fleet =
      ((cached resolver record r).1.map fun rules => (⟨⟨group, record⟩, rules⟩ : Renewal)).elim
        r.fleet (Renewal.perform r.fleet) := by
  have hfleet := fleet_cached resolver record r
  unfold refreshRecord
  rcases hcached : cached resolver record r with ⟨_ | rules, r'⟩ <;> rw [hcached] at hfleet
  · exact hfleet
  · dsimp only at hfleet ⊢
    rw [hfleet]
    rfl

theorem cache_refreshRecord (resolver : Resolver) (group : PodGroup) (r : Refresh)
    (record : Record) :
    (refreshRecord resolver group r record).cache = (cached resolver record r).2.cache := by
  unfold refreshRecord
  split <;> rename_i hcached <;> rw [hcached]

theorem fleet_recordRenewals (records : List Record) (r : Refresh) :
    (records.foldl (refreshRecord resolver group) r).fleet =
      (recordRenewals resolver group records r).foldl Renewal.perform r.fleet := by
  induction records generalizing r with
  | nil => rfl
  | cons record rest ih =>
    rw [List.foldl_cons, ih, recordRenewals, List.foldl_append, fleet_refreshRecord]
    cases (cached resolver record r).1 <;> rfl

theorem fleet_groupRenewals (groups : List PodGroup) (r : Refresh) :
    (groups.foldl (refreshGroup resolver affected) r).fleet =
      (groupRenewals resolver affected groups r).foldl Renewal.perform r.fleet := by
  induction groups generalizing r with
  | nil => rfl
  | cons group rest ih =>
    rw [List.foldl_cons, ih, groupRenewals, List.foldl_append, refreshGroup_eq,
      fleet_recordRenewals]

/-- All that a refresh does to the firewalls are its renewals. -/
theorem fleet_refresh (m : Manager) (affected : Record → Bool) :
    (m.refresh affected).2.fleet = (m.renewals affected).foldl Renewal.perform m.fleet :=
  fleet_groupRenewals _ _

/-! ### What is recalled -/

def firstUnder (visits : List Visit) (key : String × String) : Option Visit :=
  visits.find? fun v => v.record.recallKey == key

/-- Whether what is recalled under each key is what the first record visited under
it resolves to. -/
def RecallsFirst (resolver : Resolver) (visited : List Visit) (r : Refresh) : Prop :=
  ∀ key, r.cache.lookup key =
    (firstUnder visited key).map fun first => (resolver.resolve first.record).toOption

/-- The renewal that a visit leads to, with what the first visit under its key
resolves to; none if that does not resolve. -/
def renewalOf (resolver : Resolver) (visits : List Visit) (v : Visit) : Option Renewal :=
  (firstUnder visits v.record.recallKey).bind fun first =>
    (resolver.resolve first.record).toOption.map (Renewal.mk v)

theorem firstUnder_append (visited visited' : List Visit) (key : String × String) :
    firstUnder (visited ++ visited') key =
      (firstUnder visited key).or (firstUnder visited' key) := List.find?_append

theorem firstUnder_singleton_of_ne {v : Visit} {key : String × String}
    (h : key ≠ v.record.recallKey) : firstUnder [v] key = none := by
  simpa [firstUnder] using h.symm

/-- Under the key of a visit there is a first one up to it. -/
theorem exists_firstUnder (visited : List Visit) (v : Visit) :
    ∃ first, firstUnder (visited ++ [v]) v.record.recallKey = some first := by
  refine Option.isSome_iff_exists.1 ?_
  simp [firstUnder]

/-- Visits behind one do not matter to it. -/
theorem renewalOf_append (resolver : Resolver) (visited later : List Visit) (v : Visit) :
    renewalOf resolver (visited ++ v :: later) v = renewalOf resolver (visited ++ [v]) v := by
  obtain ⟨first, hfirst⟩ := exists_firstUnder visited v
  rw [renewalOf, renewalOf, List.append_cons, firstUnder_append, hfirst, Option.some_or]

theorem cached_eq (resolver : Resolver) (record : Record) (r : Refresh) :
    cached resolver record r =
      match r.cache.lookup record.recallKey with
      | some rules => (rules, r)
      | none => ((resolver.resolve record).toOption,
        { r with cache := (record.recallKey, (resolver.resolve record).toOption) :: r.cache }) :=
  rfl

/-- What is taken for the rules of a record are those of the first record visited
under its key, which may be the record itself. -/
theorem cached_first (h : RecallsFirst resolver visited r) (v : Visit) :
    (∃ first, firstUnder (visited ++ [v]) v.record.recallKey = some first ∧
      (cached resolver v.record r).1 = (resolver.resolve first.record).toOption) ∧
      RecallsFirst resolver (visited ++ [v]) (cached resolver v.record r).2 := by
  have hother {key : String × String} (hne : key ≠ v.record.recallKey) :
      firstUnder (visited ++ [v]) key = firstUnder visited key := by
    rw [firstUnder_append, firstUnder_singleton_of_ne hne, Option.or_none]
  have hlookup := h v.record.recallKey
  rw [cached_eq, hlookup]
  rcases hfirst : firstUnder visited v.record.recallKey with _ | first
  · have hself : firstUnder (visited ++ [v]) v.record.recallKey = some v := by
      rw [firstUnder_append, hfirst]
      simp [firstUnder]
    refine ⟨⟨v, hself, rfl⟩, fun key => ?_⟩
    by_cases heq : key = v.record.recallKey
    · rw [heq, hself]
      exact List.lookup_cons_self
    · rw [hother heq, ← h key]
      simp [List.lookup_cons, beq_eq_false_iff_ne.2 heq]
  · have hsame : firstUnder (visited ++ [v]) v.record.recallKey = some first := by
      rw [firstUnder_append, hfirst, Option.some_or]
    refine ⟨⟨first, hsame, rfl⟩, fun key => (h key).trans ?_⟩
    by_cases heq : key = v.record.recallKey
    · rw [heq, hsame, hfirst]
    · rw [hother heq]

/-! ### The renewals of a refresh -/

def visitsIn (affected : Record → Bool) (f : Fleet) (group : PodGroup) : List Visit :=
  (affectedIn affected f group).map (Visit.mk group)

def visits (m : Manager) (affected : Record → Bool) : List Visit :=
  m.fleet.groups.keys.flatMap (visitsIn affected m.fleet)

theorem RecallsFirst.refreshRecord (h : RecallsFirst resolver visited r) (v : Visit) :
    RecallsFirst resolver (visited ++ [v]) (refreshRecord resolver v.group r v.record) := by
  intro key
  rw [cache_refreshRecord]
  exact (cached_first h v).2 key

theorem recordRenewals_eq (records : List Record) (h : RecallsFirst resolver visited r)
    {later visits : List Visit}
    (hvisits : visits = visited ++ records.map (Visit.mk group) ++ later) :
    recordRenewals resolver group records r =
        (records.map (Visit.mk group)).filterMap (renewalOf resolver visits) ∧
      RecallsFirst resolver (visited ++ records.map (Visit.mk group))
        (records.foldl (refreshRecord resolver group) r) := by
  induction records generalizing visited r with
  | nil =>
    rw [List.map_nil, List.append_nil]
    exact ⟨rfl, h⟩
  | cons record rest ih =>
    obtain ⟨⟨first, hfirst, hrules⟩, -⟩ := cached_first h ⟨group, record⟩
    obtain ⟨hrest, hrecalls⟩ := ih (h.refreshRecord ⟨group, record⟩)
      (by rw [hvisits, List.map_cons, ← List.append_cons])
    have hrenewal : renewalOf resolver visits ⟨group, record⟩ =
        (cached resolver record r).1.map (Renewal.mk ⟨group, record⟩) := by
      rw [hvisits, List.map_cons, List.append_assoc, List.cons_append, renewalOf_append, renewalOf,
        hfirst, Option.bind_some, hrules]
    rw [recordRenewals, hrest, List.map_cons, List.append_cons]
    refine ⟨?_, hrecalls⟩
    rw [List.filterMap_cons, hrenewal]
    cases (cached resolver record r).1 <;> rfl

/-- Which records a firewall applies is told by its ledger. -/
theorem affectedIn_congr {f f' : Fleet} (h : f.ledger? group = f'.ledger? group) :
    affectedIn affected f group = affectedIn affected f' group := by
  have heq (f : Fleet) : affectedIn affected f group = ((f.ledger? group).map fun l =>
      (Direction.all.flatMap fun d =>
        (l.applied.get d).map (·.record)).filter affected).getD [] := by
    rw [affectedIn, Fleet.site?, Fleet.ledger?]
    cases f.groups.get? group <;> rfl
  rw [heq, heq, h]

/-- A renewal leaves the firewalls of other groups alone. -/
theorem ledger?_perform (f : Fleet) (renewal : Renewal) {group : PodGroup}
    (h : group ≠ renewal.group) : (renewal.perform f).ledger? group = f.ledger? group := by
  have hcases := attempt_cases f renewal.group (.apply renewal.record renewal.rules)
  rcases hcases with ⟨-, hnone⟩ | ⟨s, -, hupdate, -⟩
  · exact congrArg (fun p : Nat × Fleet => p.2.ledger? group) hnone
  · exact (congrArg (Fleet.ledger? · group) hupdate).trans (Fleet.ledger?_update_of_ne f _ h)

theorem ledger?_refreshRecord {group' : PodGroup} (r : Refresh) (record : Record)
    (h : group' ≠ group) :
    (refreshRecord resolver group r record).fleet.ledger? group' = r.fleet.ledger? group' := by
  rw [fleet_refreshRecord]
  cases (cached resolver record r).1 with
  | none => rfl
  | some rules => exact ledger?_perform r.fleet ⟨⟨group, record⟩, rules⟩ h

theorem ledger?_foldl_refreshRecord {group' : PodGroup} (records : List Record) (r : Refresh)
    (h : group' ≠ group) :
    (records.foldl (refreshRecord resolver group) r).fleet.ledger? group' =
      r.fleet.ledger? group' := by
  induction records generalizing r with
  | nil => rfl
  | cons record rest ih => rw [List.foldl_cons, ih, ledger?_refreshRecord r record h]

theorem groupRenewals_eq {f : Fleet} (groups : List PodGroup) (hnodup : groups.Nodup)
    (hledgers : ∀ group ∈ groups, r.fleet.ledger? group = f.ledger? group)
    (h : RecallsFirst resolver visited r) {visits : List Visit}
    (hvisits : visits = visited ++ groups.flatMap (visitsIn affected f)) :
    groupRenewals resolver affected groups r =
      (groups.flatMap (visitsIn affected f)).filterMap (renewalOf resolver visits) := by
  induction groups generalizing visited r with
  | nil => rfl
  | cons group rest ih =>
    obtain ⟨hgroup, hrest⟩ := List.forall_mem_cons.1 hledgers
    obtain ⟨hnot, hnodup⟩ := List.nodup_cons.1 hnodup
    rw [List.flatMap_cons, ← List.append_assoc] at hvisits
    have hrecords := recordRenewals_eq (affectedIn affected f group) h hvisits
    rw [groupRenewals, refreshGroup_eq, affectedIn_congr hgroup, hrecords.1, List.flatMap_cons,
      List.filterMap_append]
    -- the groups behind are still as they were
    refine congrArg _ (ih hnodup (fun group' hmem => ?_) hrecords.2 hvisits)
    have hne : group' ≠ group := by
      rintro rfl
      exact hnot hmem
    rw [ledger?_foldl_refreshRecord _ r hne, hrest group' hmem]

/-- Each visit of a record leads to a renewal with the rules that the first record
visited under its key resolves to. -/
theorem renewals_eq (m : Manager) (affected : Record → Bool) :
    m.renewals affected =
      (m.visits affected).filterMap (renewalOf m.resolver (m.visits affected)) :=
  -- at the start of a refresh nothing is visited
  have hstart : RecallsFirst m.resolver [] ⟨[], 0, m.fleet⟩ := fun _ => rfl
  groupRenewals_eq m.fleet.groups.keys m.fleet.groups.nodup_keys (fun _ _ => rfl) hstart rfl

theorem toOption_eq_some_iff {ε α : Type} {e : Except ε α} {a : α} :
    e.toOption = some a ↔ e = .ok a := by cases e <;> simp [Except.toOption]

theorem mem_renewals {renewal : Renewal} : renewal ∈ m.renewals affected ↔
    renewal.toVisit ∈ m.visits affected ∧ ∃ first,
      firstUnder (m.visits affected) renewal.record.recallKey = some first ∧
        m.resolver.resolve first.record = .ok renewal.rules := by
  rw [renewals_eq, List.mem_filterMap]
  constructor
  · rintro ⟨v, hv, hrenewal⟩
    obtain ⟨first, hfirst, hrenewal⟩ := Option.bind_eq_some_iff.1 hrenewal
    obtain ⟨rules, hresolve, rfl⟩ := Option.map_eq_some_iff.1 hrenewal
    exact ⟨hv, first, hfirst, toOption_eq_some_iff.1 hresolve⟩
  · rintro ⟨hv, first, hfirst, hresolve⟩
    refine ⟨renewal.toVisit, hv, Option.bind_eq_some_iff.2 ⟨first, hfirst, ?_⟩⟩
    exact Option.map_eq_some_iff.2 ⟨renewal.rules, toOption_eq_some_iff.2 hresolve, rfl⟩

/-- A refresh does to the firewalls what its renewals do. It passes the rules that
each record resolves to exactly if no record resolves to other rules than the
first one that is visited under its key. -/
theorem refresh_transparent_iff (m : Manager) (affected : Record → Bool) :
    (m.refresh affected).2.fleet = (m.renewals affected).foldl Renewal.perform m.fleet ∧
      ((∀ r ∈ m.renewals affected, m.resolver.resolve r.record = .ok r.rules) ↔
        ∀ v ∈ m.visits affected, ∀ first,
          firstUnder (m.visits affected) v.record.recallKey = some first →
            ∀ rules, m.resolver.resolve first.record = .ok rules →
              m.resolver.resolve v.record = .ok rules) := by
  refine ⟨fleet_refresh m affected, fun h v hv first hfirst rules hrules => ?_, fun h r hr => ?_⟩
  · exact h ⟨v, rules⟩ (mem_renewals.2 ⟨hv, first, hfirst, hrules⟩)
  · obtain ⟨hv, first, hfirst, hrules⟩ := mem_renewals.1 hr
    exact h r.toVisit hv first hfirst r.rules hrules

/-! ### Versions of policies -/

theorem applies_of_mem_visits {P : Record → Prop} (hm : m.fleet.All (Ledger.Applies P)) {v : Visit}
    (hv : v ∈ m.visits affected) : P v.record := by
  obtain ⟨group, -, hv⟩ := List.mem_flatMap.1 hv
  obtain ⟨record, hrecord, rfl⟩ := List.mem_map.1 hv
  unfold affectedIn at hrecord
  split at hrecord
  · cases hrecord
  · rename_i s hsite
    obtain ⟨d, a, ha, rfl⟩ := Deployed.mem_appliedRecords.1 (List.mem_filter.1 hrecord).1
    exact hm group _ (Fleet.ledger?_of_site? hsite) d a ha

/-- As long as all firewalls apply the stored versions of policies only, a refresh
passes the rules that each record resolves to. -/
theorem transparent_of_compiled {k8s : List NetworkPolicy} {pcn : List PolycubePolicy}
    (hk8s : m.k8sPolicies.FedBy k8s) (hpcn : m.pcnPolicies.FedBy pcn)
    (hm : m.fleet.All (Ledger.Applies m.Compiled)) :
    ∀ r ∈ m.renewals affected, m.resolver.resolve r.record = .ok r.rules := by
  refine (refresh_transparent_iff m affected).2.2 fun v hv first hfirst rules hrules => ?_
  have hkey : first.record.recallKey = v.record.recallKey := by
    simpa using List.find?_some hfirst
  obtain ⟨hns, hname⟩ := Prod.mk.inj hkey
  rwa [← Compiled.eq hk8s hpcn (applies_of_mem_visits hm (List.mem_of_find?_eq_some hfirst))
    (applies_of_mem_visits hm hv) hns hname]

def podAffects (homes : List (Pod × Namespace)) (r : Record) : Bool :=
  match r.peer with
  | none => false
  | some peer => homes.any fun h => mayBe peer h.1 h.2

/-- A change that shows to peers is handled by regrouping the pod and a
refresh. -/
theorem onPod_eq_refresh {now : Nat} {key : ObjectKey} {change : Change (Stored Pod)}
    {homes : List (Pod × Namespace)}
    (hregroup : (m.regroup now key (change.new.map (·.object.body))).1 = .ok ())
    (hview : peerView (change.old.map (·.object.body)) ≠ peerView (change.new.map (·.object.body)))
    (hhomes : ((peerView (change.old.map (·.object.body))).toList ++
        (peerView (change.new.map (·.object.body))).toList).mapM (fun p =>
          (m.cluster.namespaceNamed p.namespaceName).map fun n => (p, n)) = .ok homes) :
    m.onPod now key change =
      (m.regroup now key (change.new.map (·.object.body))).2.refresh (podAffects homes) := by
  have hcluster := (keeps_regroup (m := m) (Ledger.Applies.invariant fun _ => True)
    (fun _ _ => trivial) now key (change.new.map (·.object.body))).cluster
  unfold onPod
  dsimp only
  rcases hgroup : m.regroup now key (change.new.map (·.object.body)) with ⟨out, m'⟩
  rw [hgroup] at hregroup hcluster
  obtain rfl : out = .ok () := hregroup
  have hcluster : m'.cluster = m.cluster := hcluster
  rw [hgroup]
  dsimp only
  rw [if_neg hview, hcluster, hhomes]
  rfl

def peersAt (port : Int) : NetworkPolicy :=
  ⟨⟨some "p", some "n", ∅, none, none, false⟩,
    ⟨⟨∅, false⟩, [], [⟨[⟨none, some ⟨∅, false⟩, none⟩], [⟨none, some (.number port), none⟩]⟩], []⟩⟩

def knowingOf (pods : List (Kube.Object Pod)) (port : Int) (fleet : Fleet) : Manager where
  node := "node"
  ignored := []
  range := none
  cluster := ⟨.ofListing pods, .ofListing [Backlog.space], .ofListing []⟩
  k8sPolicies := .ofListing [peersAt port]
  pcnPolicies := default
  fleet := fleet

def labelledPod : Kube.Object Pod :=
  ⟨⟨some "b", some "n", ∅, none, none, false⟩,
    ⟨"b", "n", OrdMap.empty.insert "k" "v", some "10.0.0.2", some "node", true, false, false⟩⟩

/-- The first pod is handled and the firewall of its group has the first version;
then the other version and another pod are seen. -/
def betweenVersions : Manager :=
  let pod := Backlog.podNamed "a" "10.0.0.1"
  knowingOf [pod, labelledPod] 443
    ((knowingOf [pod] 80 (.empty Backend.empty)).onPod 0 ⟨"n", "a"⟩
      ⟨.added, some ⟨0, pod⟩, none⟩).2.fleet

theorem betweenVersions_reached : betweenVersions.Reached fun _ => True :=
  have hstart : (knowingOf [Backlog.podNamed "a" "10.0.0.1"] 80 (.empty Backend.empty)).Reached
      fun _ => True := .start (m := knowingOf _ 80 default) _ fun _ _ _ => trivial
  have hstores : betweenVersions.Stores fun _ => True := fun _ _ _ => trivial
  .stores (.pod 0 _ _ hstart) hstores

/-- When the other pod is handled, its new firewall gets the other version. Then
the refresh recalls the rules of the first version for it. -/
theorem other_version_recalled :
    ¬∀ (m : Manager) (now : Nat) (key : ObjectKey) (change : Change (Stored Pod))
        (homes : List (Pod × Namespace)), m.Reached (fun _ => True) →
      let m' := (m.regroup now key (change.new.map (·.object.body))).2
      m.onPod now key change = m'.refresh (podAffects homes) →
        ∀ r ∈ m'.renewals (podAffects homes), m'.resolver.resolve r.record = .ok r.rules := by
  intro h
  let pod : Pod := { labelledPod.body with node := none }
  let homes : List (Pod × Namespace) := [(pod, Backlog.space.body)]
  obtain ⟨hregroup, hname, hrules⟩ :
      (betweenVersions.regroup 0 ⟨"n", "b"⟩ (some labelledPod.body)).1.toBool = true ∧
        (betweenVersions.cluster.namespaceNamed "n").toOption = some Backlog.space.body ∧
        (((betweenVersions.regroup 0 ⟨"n", "b"⟩ (some labelledPod.body)).2.renewals
          (podAffects homes)).any fun r =>
            ((betweenVersions.regroup 0 ⟨"n", "b"⟩ (some labelledPod.body)).2.resolver.resolve
              r.record).toOption != some r.rules) = true := by decide +kernel
  have hhomes : [pod].mapM (fun p =>
      (betweenVersions.cluster.namespaceNamed p.namespaceName).map fun n => (p, n)) =
        .ok homes := by
    rw [List.mapM_cons, show pod.namespaceName = "n" from rfl, toOption_eq_some_iff.1 hname]
    rfl
  obtain ⟨r, hr, hrules⟩ := List.any_eq_true.1 hrules
  have hresolve : (betweenVersions.regroup 0 ⟨"n", "b"⟩ (some labelledPod.body)).2.resolver.resolve
      r.record = .ok r.rules :=
    h betweenVersions 0 ⟨"n", "b"⟩ ⟨.added, some ⟨1, labelledPod⟩, none⟩ homes
      betweenVersions_reached
      (onPod_eq_refresh (eq_ok_of_toBool hregroup) (by decide +kernel) hhomes) r hr
  rw [toOption_eq_some_iff.2 hresolve] at hrules
  exact absurd hrules (by simp)

end Manager

end PodFirewall
