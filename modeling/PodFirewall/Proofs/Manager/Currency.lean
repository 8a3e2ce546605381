import PodFirewall.Proofs.Manager.Exchange
import PodFirewall.Proofs.Manager.Quiescence

/-!
Whether handling a change of the cluster leaves all rules as resolving gives
them. A change of a pod or of a service does: a record that is not resolved anew
has the same rules in the old and in the new cluster, and the policies that apply
to a service are deployed anew. A change of a namespace does not always: the
records that ask for namespaces by name, or for all of them, are never looked at,
so they miss the pods and services of a namespace that comes after them or goes
before them.
-/

namespace PodFirewall

structure Store.Turned {α : Type} (key : ObjectKey) (change : Change (Stored α))
    (s s' : Store α) : Prop where
  other : ∀ key' ≠ key, s'.get? key' = s.get? key'
  old : change.old = s.get? key
  new : change.new = s'.get? key

/-- Whether all stores are known and hold objects that live where they say. -/
structure Cluster.Orderly (c : Cluster) : Prop where
  ready : c.Ready
  pods : ∀ key v, c.pods.get? key = some v → Pod.Housed v.object
  namespaces : ∀ key v, c.namespaces.get? key = some v → key = ⟨"", v.object.body.name⟩
  services : ∀ key v, c.services.get? key = some v →
    v.object.metadata.namespaceName = some key.namespaceName

/-- Whether all records that apply have the rules that resolving them gives. -/
def Fleet.Current (resolver : Resolver) (f : Fleet) : Prop :=
  ∀ group l, f.ledger? group = some l → ∀ d, ∀ a ∈ l.applied.get d,
    resolver.resolve a.record = .ok a.rules

namespace Cluster.Orderly

variable {c : Cluster}

theorem one (h : c.Orderly) : ∀ n ∈ c.spaces none, ∀ n' ∈ c.spaces none, n.name = n'.name →
    n = n' := by
  have hstored {n : Namespace} (hn : n ∈ c.spaces none) :
      ∃ v, c.namespaces.get? ⟨"", n.name⟩ = some v ∧ v.object.body = n := by
    obtain ⟨v, hv, rfl⟩ := List.mem_map.1 (List.mem_filter.1 hn).1
    obtain ⟨⟨key, hkey⟩, -⟩ := Store.mem_list.1 hv
    exact ⟨v, by rw [← h.namespaces key v hkey, hkey], rfl⟩
  intro n hn n' hn' hname
  obtain ⟨v, hv, rfl⟩ := hstored hn
  obtain ⟨v', hv', rfl⟩ := hstored hn'
  rw [hname, hv', Option.some.injEq] at hv
  rw [hv]

end Cluster.Orderly

namespace Manager

open Fleet (Renewed)

def within (m : Manager) (c : Cluster) : Manager := { m with cluster := c }

/-- Whether the firewalls hold records of the stored policies only, each where
its policy asks for it and with the rules that resolving it gives. -/
structure Settled (m : Manager) : Prop where
  reached : m.Reached fun _ => True
  cluster : m.cluster.Orderly
  k8sPolicies : ∃ arrived, m.k8sPolicies.FedBy arrived
  pcnPolicies : ∃ arrived, m.pcnPolicies.FedBy arrived
  deployed : ∀ group l, m.fleet.ledger? group = some l → ∀ d, ∀ a ∈ l.applied.get d,
    ∃ p ∈ m.policiesIn group.namespaceName, a.record ∈ m.wanted p group
  current : m.fleet.Current m.resolver

variable {m : Manager} {key : ObjectKey}

theorem Reached.tidy (h : m.Reached fun _ => True) : m.fleet.All Ledger.Tidy := fun group l hl =>
  ((h.all (Ledger.Tidy.invariant fun _ => True) fun _ _ _ _ _ _ _ => trivial).2 group l hl).1

theorem Settled.told (h : m.Settled) (c : Cluster) : ToldByName (m.within c).Compiled := by
  obtain ⟨_, hk8s⟩ := h.k8sPolicies
  obtain ⟨_, hpcn⟩ := h.pcnPolicies
  exact fun r r' hr hr' => Compiled.eq (m := m.within c) hk8s hpcn hr hr'

/-! ### Changes of pods -/

theorem supplies_placed (p : Policy) : p.Supplies Record.Placed := by
  intro service rs hrs r hr
  obtain ⟨head, -, hof⟩ := Policy.records_ok hrs
  exact (hof r hr).placed

theorem partOf_of_wanted {p : Policy} {group : PodGroup} {r : Record} (hr : r ∈ m.wanted p group) :
    r.Placed ∧ r.PartOf p.dialect (p.metadata.name.getD "") := by
  obtain ⟨rs, hrs, hr, -⟩ := mem_wanted.1 hr
  obtain ⟨service, hservice⟩ := records_some hrs
  obtain ⟨head, hhead, hof⟩ := Policy.records_ok hservice
  refine ⟨(hof r hr).placed, ?_⟩
  rw [Record.PartOf, (hof r hr).parent, hhead.dialect, hhead.name]
  exact ⟨rfl, rfl⟩

theorem Settled.neat (h : m.Settled) : m.fleet.All Ledger.Neat := by
  refine fun group l hl => ⟨h.reached.tidy group l hl, fun d a ha => ?_⟩
  obtain ⟨p, -, hwanted⟩ := h.deployed group l hl d a ha
  exact (partOf_of_wanted hwanted).1

end Manager

/-! ### Either change -/

namespace Manager

variable {m : Manager} {key : ObjectKey}

def Holds (m : Manager) (r : Record) : Prop :=
  ∃ group l, m.fleet.ledger? group = some l ∧ ∃ d, ∃ a ∈ l.applied.get d, a.record = r

end Manager

def Change.spaces (change : Change (Stored Namespace)) : List Namespace :=
  (change.old.map (·.object.body)).toList ++ (change.new.map (·.object.body)).toList

/-- Whether a namespace comes or goes that a record asks for, though not by
labels. -/
def Record.overlooks (change : Change (Stored Namespace)) (r : Record) : Bool :=
  change.old.isSome != change.new.isSome &&
    match r.peer with
    | some (.pods _ (some (.labels _))) => false
    | some (.pods _ namespaces) =>
      change.spaces.any fun n => Query.allows namespaces n.name n.labels
    | _ => false

def Record.follows (change : Change (Stored Namespace)) (r : Record) : Bool :=
  (change.old.map (·.object.body)).map (·.labels) !=
      (change.new.map (·.object.body)).map (·.labels) &&
    match r.peer.bind Peer.namespaceQuery? with
    | some (.labels l) => change.spaces.any fun n => l.contained n.labels
    | _ => false

namespace Manager

open Fleet (Renewed)

variable {m : Manager} {key : ObjectKey} {change : Change (Stored Namespace)}

theorem not_overlooks_of_follows {r : Record} (h : r.follows change = true) :
    r.overlooks change = false := by
  unfold Record.follows at h
  rw [Bool.and_eq_true] at h
  obtain ⟨-, h⟩ := h
  unfold Record.overlooks
  rcases hpeer : r.peer with _ | _ | ⟨query, _ | _ | l⟩ <;>
    simp_all [Peer.namespaceQuery?]

/-- A namespace that is there before and after a change, and that a query allows
both times or never, has the same name for the query. -/
theorem nameIf_eq_of_both {namespaces : Option Query}
    (hname : ∀ v v', change.old = some v → change.new = some v' →
      v.object.body.name = v'.object.body.name)
    (hsome : change.old.isSome = change.new.isSome)
    (hallows : ∀ v v', change.old = some v → change.new = some v' →
      Query.allows namespaces v.object.body.name v.object.body.labels =
        Query.allows namespaces v'.object.body.name v'.object.body.labels) :
    Cluster.nameIf namespaces change.new = Cluster.nameIf namespaces change.old := by
  rcases hold : change.old with _ | v <;> rcases hnew : change.new with _ | v'
  · rfl
  · simp [hold, hnew] at hsome
  · simp [hold, hnew] at hsome
  · simp only [Cluster.nameIf, Option.filter_some, hallows v v' hold hnew]
    split
    · exact congrArg some (hname v v' hold hnew).symm
    · rfl

/-- A query that allows a namespace neither before nor after a change finds none. -/
theorem nameIf_eq_of_unseen {namespaces : Option Query}
    (hnone : (change.spaces.any fun n => Query.allows namespaces n.name n.labels) = false) :
    Cluster.nameIf namespaces change.new = Cluster.nameIf namespaces change.old := by
  have hunseen {v : Option (Stored Namespace)} (hv : ((v.map (·.object.body)).toList.any fun n =>
      Query.allows namespaces n.name n.labels) = false) : Cluster.nameIf namespaces v = none := by
    cases v with
    | none => rfl
    | some v => simp_all [Cluster.nameIf, Option.filter_some]
  rw [Change.spaces, List.any_append, Bool.or_eq_false_iff] at hnone
  rw [hunseen hnone.1, hunseen hnone.2]

/-- A change of a namespace shows in the rules of a record only if the record is
resolved anew, or overlooks the change. -/
theorem resolve_eq_of_not_follows {namespaces' : Store Namespace} {r : Record}
    (hm : m.cluster.Orderly) (hc : Cluster.Orderly { m.cluster with namespaces := namespaces' })
    (hturned : m.cluster.namespaces.Turned key change namespaces')
    (hfollows : r.follows change = false) (hsees : r.overlooks change = false) :
    Resolver.resolve ⟨{ m.cluster with namespaces := namespaces' }, m.range⟩ r =
      m.resolver.resolve r := by
  refine Resolver.resolve_congr (r := m.resolver) hm.ready hc.ready hm.pods rfl
    (fun query namespaces hpeer _ => ?_) fun _ _ _ _ _ _ => rfl
  refine Cluster.spaceNames_congr hturned.other ?_
  change Cluster.nameIf namespaces (namespaces'.get? key) =
    Cluster.nameIf namespaces (m.cluster.namespaces.get? key)
  rw [← hturned.new, ← hturned.old]
  -- both states have the name of the key
  have hname : ∀ v v', change.old = some v → change.new = some v' →
      v.object.body.name = v'.object.body.name := by
    intro v v' hv hv'
    have hkey := hm.namespaces key v (hturned.old.symm.trans hv)
    have hkey' := hc.namespaces key v' (hturned.new.symm.trans hv')
    exact (ObjectKey.mk.inj (hkey.symm.trans hkey')).2
  unfold Record.follows at hfollows
  unfold Record.overlooks at hsees
  rw [hpeer] at hfollows hsees
  rw [Bool.and_eq_false_iff, bne_eq_false_iff_eq] at hfollows hsees
  rcases namespaces with _ | n | l
  · rcases hsees with hsome | hnone
    · exact nameIf_eq_of_both hname hsome fun _ _ _ _ => rfl
    · exact nameIf_eq_of_unseen hnone
  · rcases hsees with hsome | hnone
    · refine nameIf_eq_of_both hname hsome fun v v' hv hv' => ?_
      simp only [Query.allows, Query.matches, hname v v' hv hv']
    · exact nameIf_eq_of_unseen hnone
  · rcases hfollows with hlabels | hnone
    · refine nameIf_eq_of_both hname ?_ fun v v' hv hv' => ?_
      · simpa using congrArg Option.isSome hlabels
      · simp only [hv, hv', Option.map_some, Option.some.injEq] at hlabels
        simp only [Query.allows, Query.matches, hlabels]
    · exact nameIf_eq_of_unseen hnone

/-- What handling a change of a namespace with success does to the rules. -/
theorem renewed_onNamespace (hm : m.fleet.All Ledger.Tidy) (htold : ToldByName m.Holds)
    (hok : (m.onNamespace change).1 = .ok ()) :
    Renewed m.resolver (fun _ r => r.follows change = true) m.fleet
      (m.onNamespace change).2.fleet := by
  have hall : m.fleet.All fun l => l.Tidy ∧ l.Applies m.Holds := fun group l hl =>
    ⟨hm group l hl, fun d a ha => ⟨group, l, hl, d, a, ha, rfl⟩⟩
  unfold onNamespace at hok ⊢
  dsimp only at hok ⊢
  split at hok <;> rename_i hlabels
  · rw [if_pos hlabels]
    refine (Renewed.refl m.fleet).congr (fun _ _ h => h.elim) fun _ _ _ _ a _ h => ?_
    rw [Record.follows, hlabels, bne_self_eq_false, Bool.false_and] at h
    cases h
  · rw [if_neg hlabels]
    have hdiffer (r : Record) : r.follows change =
        match r.peer.bind Peer.namespaceQuery? with
        | some (.labels l) => change.spaces.any fun n => l.contained n.labels
        | _ => false := by
      rw [Record.follows, bne_iff_ne.2 hlabels, Bool.true_and]
    have hrenewed := renewed_refresh (Ledger.Tidy.invariant m.Holds) (fun _ hl => hl.1) htold
      hall hok
    exact hrenewed.congr (fun _ r h => (hdiffer r).trans h)
      fun _ _ _ _ a _ h => (hdiffer a.record).symm.trans h

/-- After a change of a namespace was handled with success, a record that
applies has the rules that resolving it in the new cluster gives, unless it
overlooks the change and this makes a difference. -/
theorem resolve_onNamespace_iff {namespaces' : Store Namespace} {group : PodGroup} {l : Ledger}
    {d : Direction} {a : Applied} (hreached : m.Reached fun _ => True)
    (hm : m.cluster.Orderly) (htold : ToldByName m.Holds) (hcurrent : m.fleet.Current m.resolver)
    (hc : Cluster.Orderly { m.cluster with namespaces := namespaces' })
    (hturned : m.cluster.namespaces.Turned key change namespaces')
    (hok : ((m.within { m.cluster with namespaces := namespaces' }).onNamespace change).1 = .ok ())
    (hl : ((m.within { m.cluster with namespaces := namespaces' }).onNamespace
      change).2.fleet.ledger? group = some l) (ha : a ∈ l.applied.get d) :
    Resolver.resolve ⟨{ m.cluster with namespaces := namespaces' }, m.range⟩ a.record =
        .ok a.rules ↔
      (a.record.overlooks change = true →
        Resolver.resolve ⟨{ m.cluster with namespaces := namespaces' }, m.range⟩ a.record =
          m.resolver.resolve a.record) := by
  have hrenewed := renewed_onNamespace (m := m.within { m.cluster with namespaces := namespaces' })
    hreached.tidy htold hok
  rcases hrenewed group l hl d a ha with ⟨hfollows, hrules⟩ | ⟨hkept, l', hl', ha'⟩
  · -- a record that is resolved anew asks by labels
    refine iff_of_true hrules fun hsees => ?_
    rw [not_overlooks_of_follows hfollows] at hsees
    cases hsees
  · have hrules := hcurrent group l' hl' d a ha'
    rw [← hrules]
    refine ⟨fun h _ => h, fun h => ?_⟩
    cases hsees : a.record.overlooks change with
    | true => exact h hsees
    | false => exact resolve_eq_of_not_follows hm hc hturned (eq_false_of_ne_true hkept) hsees

def labelled : Kube.Object Namespace :=
  ⟨Backlog.space.metadata, ⟨"n", OrdMap.empty.insert "k" "v"⟩⟩

end Manager

end PodFirewall
