import PodFirewall.Manager.Basic
import PodFirewall.Proofs.Watch.Store

/-!
What the rules of a record depend on. A record reads the pods one by one, as
far as they are live, and never asks on which node they are; so its rules stay
as they are if one pod changes and neither its old nor its new state may be a
peer of the record. This is why a change of a pod leads to no more than
resolving anew the records that it may concern.
-/

namespace PodFirewall

/-- What a map holds is listed by its keys, so what is read off each value can
be compared key by key. -/
theorem OrdMap.filterMap_values_congr {κ α β : Type} [Ord κ] [Std.TransOrd κ] [Std.LawfulEqOrd κ]
    {m m' : OrdMap κ α} {f : α → Option β} (h : ∀ k, (m.get? k).bind f = (m'.get? k).bind f) :
    m.values.filterMap f = m'.values.filterMap f := by
  let read (m : OrdMap κ α) := m.toList.filterMap fun e => (f e.2).map (e.1, ·)
  have hmem (m : OrdMap κ α) (k : κ) (b : β) : (k, b) ∈ read m ↔ (m.get? k).bind f = some b := by
    simp only [read, List.mem_filterMap, Option.map_eq_some_iff, Prod.mk.injEq,
      Option.bind_eq_some_iff, OrdMap.get?_eq_some_iff]
    constructor
    · rintro ⟨e, he, b', hb, rfl, rfl⟩
      exact ⟨e.2, he, hb⟩
    · rintro ⟨a, ha, hb⟩
      exact ⟨(k, a), ha, b, hb, rfl, rfl⟩
  have hsorted (m : OrdMap κ α) : (read m).Pairwise fun a b => compare a.1 b.1 = .lt := by
    refine m.sorted.filterMap _ fun a b hlt a' ha' b' hb' => ?_
    obtain ⟨_, -, rfl⟩ := Option.map_eq_some_iff.1 ha'
    obtain ⟨_, -, rfl⟩ := Option.map_eq_some_iff.1 hb'
    exact hlt
  have hread : read m = read m' :=
    OrdMap.eq_of_sorted (hsorted m) (hsorted m') fun ⟨k, b⟩ => by rw [hmem, hmem, h]
  have hvalues (m : OrdMap κ α) : m.values.filterMap f = (read m).map (·.2) := by
    simp [read, OrdMap.values, List.filterMap_map, List.map_filterMap, Function.comp_def]
  rw [hvalues, hvalues, hread]

def Pod.unplaced (p : Pod) : Pod := { p with node := none }

/-- Whether a pod lives in the namespace that its metadata name. -/
def Pod.Housed (o : Kube.Object Pod) : Prop := o.metadata.namespaceName = some o.body.namespaceName

/-- Whether a namespace has the name that its metadata say and lives in no
namespace itself. -/
def Namespace.Global (o : Kube.Object Namespace) : Prop :=
  o.metadata.namespaceName = none ∧ o.metadata.name = some o.body.name

open Manager (peerView mayBe)

namespace Cluster

structure Ready (c : Cluster) : Prop where
  pods : c.pods.ready = true
  namespaces : c.namespaces.ready = true
  services : c.services.ready = true

def spaces (c : Cluster) (query : Option Query) : List Namespace :=
  ((c.namespaces.list fun _ => true).map (·.object.body)).filter fun n =>
    Query.allows query n.name n.labels

/-- The live pods of a namespace that a query matches, whether or not all of
them are known. -/
def known (c : Cluster) (query : Option Query) (namespaceName : String) : List Pod :=
  ((c.pods.list (livesIn namespaceName)).map (·.object.body)).filter fun p =>
    p.live && Query.allows query p.name p.labels

def served (c : Cluster) (ns : String) : List Service :=
  (c.services.list (livesIn ns)).map (·.object.body)

/-- The store that a question for the rules of peers fails on, if it does. The
namespaces are asked first; if there are any, their pods are asked next, and last,
for outgoing traffic, their services. -/
def missing? (c : Cluster) (direction : Direction) (namespaces : Option Query) :
    Option NotReady :=
  if c.namespaces.ready = false then some .namespaces
  else if c.spaces namespaces = [] then none
  else if c.pods.ready = false then some .pods
  else if direction = .outgoing ∧ c.services.ready = false then some .services
  else none

def glimpse (query : Option Query) (ns : String) (p : Option (Stored Pod)) : Option Pod :=
  (peerView (p.map (·.object.body))).filter fun p =>
    p.namespaceName == ns && Query.allows query p.name p.labels

def visible (c : Cluster) (query : Option Query) (ns : String) : List Pod :=
  c.pods.objects.values.filterMap fun v => glimpse query ns (some v)

/-- Whether a change of a pod may concern the peer of a record. -/
def concerns (c : Cluster) (change : Change (Stored Pod)) (r : Record) : Bool :=
  let old := peerView (change.old.map (·.object.body))
  let new := peerView (change.new.map (·.object.body))
  old != new && r.peer.any fun peer =>
    (old.toList ++ new.toList).any fun p =>
      (c.namespaceNamed p.namespaceName).toOption.any (mayBe peer p)

variable {c : Cluster} {query : Option Query} {ns : String}

theorem namespacesOf_ok (h : c.Ready) (query : Option Query) :
    c.namespacesOf query = .ok (c.spaces query) := if_pos h.namespaces

theorem glimpse_some (query : Option Query) (ns : String) (v : Stored Pod) :
    glimpse query ns (some v) =
      if v.object.body.namespaceName == ns && v.object.body.live &&
          Query.allows query v.object.body.name v.object.body.labels then
        some v.object.body.unplaced
      else none := by
  unfold glimpse peerView
  by_cases hlive : v.object.body.live
  · simp [hlive, Option.filter_some, Pod.unplaced]
  · simp [hlive, Option.filter_some]

/-- The pods that are known are those that are visible, but for their nodes. -/
theorem map_unplaced_known
    (hpods : ∀ key v, c.pods.get? key = some v → Pod.Housed v.object)
    (query : Option Query) (ns : String) :
    (c.known query ns).map Pod.unplaced = c.visible query ns := by
  have hlives : ∀ v ∈ c.pods.objects.values,
      livesIn ns v.object = (v.object.body.namespaceName == ns) := by
    intro v hv
    obtain ⟨e, he, rfl⟩ := List.mem_map.1 hv
    rw [livesIn, hpods e.1 e.2 (OrdMap.get?_eq_some_iff.2 he)]
    rfl
  rw [visible, known, Store.list]
  generalize c.pods.objects.values = values at hlives ⊢
  induction values with
  | nil => rfl
  | cons v rest ih =>
    obtain ⟨hv, hrest⟩ := List.forall_mem_cons.1 hlives
    rw [List.filterMap_cons, ← ih hrest, glimpse_some, List.filter_cons, hv]
    cases v.object.body.namespaceName == ns
    · rfl
    · simp only [if_pos, List.map_cons, List.filter_cons, Bool.true_and]
      split <;> rfl

theorem Ready.missing?_eq_none (h : c.Ready) (direction : Direction) (namespaces : Option Query) :
    c.missing? direction namespaces = none := by
  simp [missing?, h.namespaces, h.pods, h.services]

theorem namespaceNamed_of_mem (h : c.Ready)
    (hone : ∀ n ∈ c.spaces none, ∀ n' ∈ c.spaces none, n.name = n'.name → n = n') {n : Namespace}
    (hn : n ∈ c.spaces query) : c.namespaceNamed n.name = .ok n := by
  have hsub {query : Option Query} {n : Namespace} (hn : n ∈ c.spaces query) :
      n ∈ c.spaces none := by
    rw [spaces, List.mem_filter] at hn ⊢
    exact ⟨hn.1, rfl⟩
  have hself : n ∈ c.spaces (some (.name n.name)) := by
    rw [spaces, List.mem_filter] at hn ⊢
    exact ⟨hn.1, by simp [Query.allows, Query.matches]⟩
  have hname : ∀ n' ∈ c.spaces (some (.name n.name)), n' = n := by
    intro n' hn'
    refine hone n' (hsub hn') n (hsub hn) ?_
    rw [spaces, List.mem_filter] at hn'
    exact (beq_iff_eq.1 hn'.2).symm
  rw [namespaceNamed, namespacesOf_ok h]
  cases hspaces : c.spaces (some (.name n.name)) with
  | nil =>
    rw [hspaces] at hself
    cases hself
  | cons n' rest =>
    rw [hspaces] at hname
    rw [← hname n' List.mem_cons_self]
    rfl

/-- A query for pods that a change does not concern sees the same before and
after it: either nothing shows of the change, or neither state is a peer. -/
theorem glimpse_eq_of_not_concerns (h : c.Ready)
    (hone : ∀ n ∈ c.spaces none, ∀ n' ∈ c.spaces none, n.name = n'.name → n = n')
    {change : Change (Stored Pod)} {record : Record} {namespaces : Option Query}
    (hpeer : record.peer = some (.pods query namespaces))
    (hconcerns : c.concerns change record = false) {n : Namespace} (hn : n ∈ c.spaces namespaces) :
    glimpse query n.name change.new = glimpse query n.name change.old := by
  have hunseen : ∀ p : Pod, (c.namespaceNamed p.namespaceName).toOption.any
      (mayBe (.pods query namespaces) p) = false →
        (p.namespaceName == n.name && Query.allows query p.name p.labels) = false := by
    intro p hp
    rw [Bool.and_eq_false_iff]
    by_cases hname : p.namespaceName = n.name
    · right
      rw [hname, namespaceNamed_of_mem h hone hn] at hp
      have hallowed := (List.mem_filter.1 hn).2
      simpa [mayBe, Except.toOption, hallowed] using hp
    · exact .inl (by simpa using hname)
  have hnone {p : Option Pod} (hp : (p.toList.any fun p =>
      (c.namespaceNamed p.namespaceName).toOption.any (mayBe (.pods query namespaces) p)) = false) :
      (p.filter fun p => p.namespaceName == n.name && Query.allows query p.name p.labels) =
        none := by
    cases p with
    | none => rfl
    | some p =>
      simp only [Option.toList_some, List.any_cons, List.any_nil, Bool.or_false] at hp
      simp [Option.filter_some, hunseen p hp]
  unfold concerns at hconcerns
  simp only [hpeer, Option.any_some, Bool.and_eq_false_iff, bne_eq_false_iff_eq,
    List.any_append, Bool.or_eq_false_iff] at hconcerns
  rcases hconcerns with hsame | ⟨hold, hnew⟩
  · rw [glimpse, glimpse, hsame]
  · rw [glimpse, glimpse, hnone hold, hnone hnew]

/-- What a query sees of the pods depends on what it sees of each. -/
theorem visible_congr {pods' : Store Pod}
    (h : ∀ key, glimpse query ns (pods'.get? key) = glimpse query ns (c.pods.get? key)) :
    visible { c with pods := pods' } query ns = c.visible query ns := by
  refine OrdMap.filterMap_values_congr fun key => ?_
  have hbind (p : Option (Stored Pod)) :
      (p.bind fun v => glimpse query ns (some v)) = glimpse query ns p := by cases p <;> rfl
  rw [hbind, hbind]
  exact h key

/-- The name of a namespace tells it, as namespaces live in none. -/
theorem eq_of_name {arrived : List (Kube.Object Namespace)} (h : c.namespaces.FedBy arrived)
    (hglobal : ∀ o ∈ arrived, Namespace.Global o) {n n' : Namespace} (hn : n ∈ c.spaces none)
    (hn' : n' ∈ c.spaces none) (hname : n.name = n'.name) : n = n' := by
  have hstored {n : Namespace} (hn : n ∈ c.spaces none) :
      ∃ v, c.namespaces.get? ⟨"", n.name⟩ = some v ∧ v.object.body = n := by
    obtain ⟨v, hv, rfl⟩ := List.mem_map.1 (List.mem_filter.1 hn).1
    obtain ⟨⟨key, hkey⟩, -⟩ := Store.mem_list.1 hv
    obtain ⟨hamong, hself⟩ := h.objects key v hkey
    obtain ⟨hnone, hname⟩ := hglobal _ hamong.mem
    rw [Kube.Metadata.key?, hname, hnone] at hself
    rw [← Option.some.inj hself] at hkey
    exact ⟨v, hkey, rfl⟩
  obtain ⟨v, hv, rfl⟩ := hstored hn
  obtain ⟨v', hv', rfl⟩ := hstored hn'
  rw [hname, hv', Option.some.injEq] at hv
  rw [hv]

end Cluster

namespace Resolver

def rulesFor (r : Resolver) (direction : Direction) (templates : List Rule)
    (query : Option Query) (spaces : List Namespace) (pods : List Pod) : List Rule :=
  let direct := pods.flatMap fun p =>
    (podAddresses r.range direction p).flatMap (fillAll direction templates)
  match direction with
  | .incoming => direct
  | .outgoing =>
    direct ++ (spaces.flatMap fun n =>
      (r.cluster.services.list (Cluster.livesIn n.name)).map (·.object.body)).flatMap
        (serviceRules templates query pods)

/-- Asking for each element of a list, where every answer waits for one store. -/
theorem mapM_ready {ε β γ : Type} {ready : Bool} {e : ε} {f : β → Except ε γ} {g : β → γ}
    (hf : ∀ b, f b = if ready then .ok (g b) else .error e) (l : List β) :
    l.mapM f = if l = [] ∨ ready = true then .ok (l.map g) else .error e := by
  induction l with
  | nil => rfl
  | cons b rest ih =>
    rw [List.mapM_cons, ih, hf]
    cases ready
    · rfl
    · simp only [or_true, if_true]
      rfl

/-- The rules for pods are those for what is known, unless a store that is asked
for it is not ready. -/
theorem resolvePods_eq_missing (r : Resolver) (direction : Direction) (templates : List Rule)
    (query namespaces : Option Query) :
    r.resolvePods direction templates query namespaces =
      match r.cluster.missing? direction namespaces with
      | some e => .error e
      | none =>
        .ok (r.rulesFor direction templates query (r.cluster.spaces namespaces)
          ((r.cluster.spaces namespaces).flatMap fun n => r.cluster.known query n.name)) := by
  have hspaces : r.cluster.namespacesOf namespaces =
      if r.cluster.namespaces.ready then .ok (r.cluster.spaces namespaces)
      else .error .namespaces := rfl
  have hpods := mapM_ready (g := fun n : Namespace => r.cluster.known query n.name)
    fun n => (rfl : r.cluster.podsIn query n.name =
      if r.cluster.pods.ready then .ok (r.cluster.known query n.name) else .error .pods)
  have hservices := mapM_ready (g := fun n : Namespace => r.cluster.served n.name)
    fun n => (rfl : r.cluster.servicesIn n.name =
      if r.cluster.services.ready then .ok (r.cluster.served n.name) else .error .services)
  unfold resolvePods Cluster.missing?
  simp only [bind, Except.bind, pure, Except.pure, hspaces, hpods, hservices]
  cases r.cluster.namespaces.ready
  · rfl
  · by_cases hnone : r.cluster.spaces namespaces = []
    · cases direction <;> simp [hnone, rulesFor]
    · cases r.cluster.pods.ready
      · simp [hnone]
      · cases direction
        · simp [hnone, rulesFor, List.flatMap_def]
        · cases r.cluster.services.ready
          · simp [hnone]
          · simp [hnone, rulesFor, List.flatMap_def, Cluster.served]

/-- The rules do not depend on the nodes of the pods. -/
theorem rulesFor_unplaced (r : Resolver) (direction : Direction) (templates : List Rule)
    (query : Option Query) (spaces : List Namespace) (pods : List Pod) :
    r.rulesFor direction templates query spaces (pods.map Pod.unplaced) =
      r.rulesFor direction templates query spaces pods := by
  have hservice : serviceRules templates query (pods.map Pod.unplaced) =
      serviceRules templates query pods := by
    funext s
    simp only [serviceRules, Service.fronts, List.any_map]
    rfl
  have hdirect : (pods.map Pod.unplaced).flatMap (fun p =>
      (podAddresses r.range direction p).flatMap (fillAll direction templates)) =
        pods.flatMap fun p =>
          (podAddresses r.range direction p).flatMap (fillAll direction templates) :=
    List.flatMap_map ..
  unfold rulesFor
  rw [hservice, hdirect]

theorem resolvePods_eq {r : Resolver} (h : r.cluster.Ready)
    (hpods : ∀ key v, r.cluster.pods.get? key = some v → Pod.Housed v.object)
    (direction : Direction) (templates : List Rule) (query namespaces : Option Query) :
    r.resolvePods direction templates query namespaces =
      .ok (r.rulesFor direction templates query (r.cluster.spaces namespaces)
        ((r.cluster.spaces namespaces).flatMap fun n => r.cluster.visible query n.name)) := by
  have hpeers : ((r.cluster.spaces namespaces).flatMap fun n =>
      r.cluster.known query n.name).map Pod.unplaced =
        (r.cluster.spaces namespaces).flatMap fun n => r.cluster.visible query n.name := by
    rw [List.map_flatMap]
    simp only [Cluster.map_unplaced_known hpods]
  rw [resolvePods_eq_missing, h.missing?_eq_none, ← hpeers, rulesFor_unplaced]

/-- The rules of a record stay as they are if one pod changes and this does not
concern the record. -/
theorem resolve_eq_of_not_concerns {r : Resolver} {pods' : Store Pod} {key : ObjectKey}
    {change : Change (Stored Pod)} {record : Record} (h : r.cluster.Ready)
    (hready : pods'.ready = true)
    (hone : ∀ n ∈ r.cluster.spaces none, ∀ n' ∈ r.cluster.spaces none, n.name = n'.name → n = n')
    (hpods : ∀ key v, r.cluster.pods.get? key = some v → Pod.Housed v.object)
    (hpods' : ∀ key v, pods'.get? key = some v → Pod.Housed v.object)
    (hother : ∀ key', key' ≠ key → pods'.get? key' = r.cluster.pods.get? key')
    (hold : change.old = r.cluster.pods.get? key) (hnew : change.new = pods'.get? key)
    (hconcerns : r.cluster.concerns change record = false) :
    Resolver.resolve ⟨{ r.cluster with pods := pods' }, r.range⟩ record = r.resolve record := by
  have hready' : Cluster.Ready { r.cluster with pods := pods' } :=
    ⟨hready, h.namespaces, h.services⟩
  unfold resolve
  split
  · rfl
  · split
    · rfl
    · rfl
    · rename_i query namespaces hpeer
      have hvisible : ∀ n ∈ r.cluster.spaces namespaces,
          Cluster.visible { r.cluster with pods := pods' } query n.name =
            r.cluster.visible query n.name := by
        refine fun n hn => Cluster.visible_congr fun key' => ?_
        -- the changed pod is not looked at, and all others are as they were
        by_cases hkey : key' = key
        · rw [hkey, ← hold, ← hnew]
          exact Cluster.glimpse_eq_of_not_concerns h hone hpeer hconcerns hn
        · rw [hother key' hkey]
      rw [resolvePods_eq hready' hpods', resolvePods_eq h hpods]
      have hpeers : ((r.cluster.spaces namespaces).flatMap fun n =>
          Cluster.visible { r.cluster with pods := pods' } query n.name) =
            (r.cluster.spaces namespaces).flatMap fun n => r.cluster.visible query n.name := by
        rw [List.flatMap_def, List.flatMap_def, List.map_congr_left hvisible]
      rw [← hpeers]
      rfl

end Resolver

/-! ### Changes of services and namespaces -/

/-- What a map holds of a kind can be compared key by key. -/
theorem OrdMap.map_filter_values_congr {κ α β : Type} [Ord κ] [Std.TransOrd κ]
    [Std.LawfulEqOrd κ] {m m' : OrdMap κ α} {f : α → β} {p : α → Bool}
    (h : ∀ k, ((m.get? k).filter p).map f = ((m'.get? k).filter p).map f) :
    (m.values.filter p).map f = (m'.values.filter p).map f := by
  have hread (m : OrdMap κ α) : (m.values.filter p).map f =
      m.values.filterMap fun v => if p v then some (f v) else none := by
    rw [← List.filterMap_eq_map, List.filterMap_filter]
    rfl
  rw [hread, hread]
  refine OrdMap.filterMap_values_congr fun k => ?_
  have hbind (v : Option α) :
      (v.bind fun v => if p v then some (f v) else none) = (v.filter p).map f := by
    cases v with
    | none => rfl
    | some v => cases hv : p v <;> simp [Option.filter_some, hv]
  rw [hbind, hbind, h k]

namespace Cluster

def spaceNames (c : Cluster) (query : Option Query) : List String := (c.spaces query).map (·.name)

variable {c c' : Cluster} {key : ObjectKey}

def nameIf (query : Option Query) (n : Option (Stored Namespace)) : Option String :=
  (n.filter fun v => Query.allows query v.object.body.name v.object.body.labels).map
    (·.object.body.name)

theorem spaceNames_congr {query : Option Query}
    (hother : ∀ key' ≠ key, c'.namespaces.get? key' = c.namespaces.get? key')
    (hself : nameIf query (c'.namespaces.get? key) = nameIf query (c.namespaces.get? key)) :
    c'.spaceNames query = c.spaceNames query := by
  have hread (c : Cluster) : c.spaceNames query = (c.namespaces.objects.values.filter fun v =>
      Query.allows query v.object.body.name v.object.body.labels).map (·.object.body.name) := by
    simp [spaceNames, spaces, Store.list, List.filter_map, Function.comp_def]
  rw [hread, hread]
  refine OrdMap.map_filter_values_congr fun key' => ?_
  by_cases hkey : key' = key
  · exact hkey ▸ hself
  · exact congrArg (fun v => (Option.filter _ v).map _) (hother key' hkey)

end Cluster

namespace Resolver

/-- Resolving asks no more of the namespaces than the names of those that the
record asks for, and no more of the services than those in them. -/
theorem resolve_congr {r : Resolver} {c' : Cluster} {record : Record} (h : r.cluster.Ready)
    (h' : c'.Ready) (hpods : ∀ key v, r.cluster.pods.get? key = some v → Pod.Housed v.object)
    (hsame : c'.pods = r.cluster.pods)
    (hspaces : ∀ query namespaces, record.peer = some (.pods query namespaces) →
      record.action.isAll = false →
      c'.spaceNames namespaces = r.cluster.spaceNames namespaces)
    (hserved : ∀ query namespaces, record.peer = some (.pods query namespaces) →
      record.direction = .outgoing → ∀ ns ∈ r.cluster.spaceNames namespaces,
        c'.served ns = r.cluster.served ns) :
    Resolver.resolve ⟨c', r.range⟩ record = r.resolve record := by
  unfold resolve
  split
  · rfl
  · rename_i hall
    split
    · rfl
    · rfl
    · rename_i query namespaces hpeer
      have hnames := hspaces query namespaces hpeer (by simpa using hall)
      -- both pods and services are looked up by the names of the namespaces
      have hpeers : ((c'.spaces namespaces).flatMap fun n => c'.visible query n.name) =
          (r.cluster.spaces namespaces).flatMap fun n => r.cluster.visible query n.name := by
        have hread (c : Cluster) : ((c.spaces namespaces).flatMap fun n => c.visible query n.name) =
            (c.spaceNames namespaces).flatMap (c.visible query) := by
          rw [Cluster.spaceNames, List.flatMap_map]
        rw [hread, hread, hnames]
        congr 1
        funext ns
        rw [Cluster.visible, Cluster.visible, hsame]
      have hrules : rulesFor ⟨c', r.range⟩ record.direction record.templates query
          (c'.spaces namespaces)
          ((r.cluster.spaces namespaces).flatMap fun n => r.cluster.visible query n.name) =
            r.rulesFor record.direction record.templates query (r.cluster.spaces namespaces)
              ((r.cluster.spaces namespaces).flatMap fun n => r.cluster.visible query n.name) := by
        cases hd : record.direction with
        | incoming => rfl
        | outgoing =>
          have hread (c : Cluster) : ((c.spaces namespaces).flatMap fun n =>
              (c.services.list (Cluster.livesIn n.name)).map (·.object.body)) =
                (c.spaceNames namespaces).flatMap c.served := by
            rw [Cluster.spaceNames, List.flatMap_map]
            rfl
          simp only [rulesFor, hread, hnames]
          rw [List.flatMap_def (f := c'.served), List.map_congr_left
            (hserved query namespaces hpeer hd), ← List.flatMap_def]
      rw [resolvePods_eq (r := ⟨c', r.range⟩) h' (hsame ▸ hpods), resolvePods_eq h hpods]
      dsimp only
      rw [hpeers, hrules]

end Resolver

end PodFirewall
