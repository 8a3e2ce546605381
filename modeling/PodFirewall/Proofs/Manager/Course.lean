import PodFirewall.Proofs.Manager.Joining

/-!
Courses of a manager whose cluster stays as it is. Policies of both dialects
come, change and go, their changes are handled late, early or more than once, and
pods are put into their groups, all in any order. What is to be remembered
between the incidents are the policies whose present version is still to be
handled: the firewalls agree with all others.
-/

namespace PodFirewall

/-- What happens to a manager while its cluster stays as it is. -/
inductive Incident where
  | k8sEvent (e : WatchEvent NetworkPolicy.Spec)
  | pcnEvent (e : WatchEvent PolycubePolicy.Body)
  | deploy (p : Policy)
  | remove (dialect : Dialect) (key : ObjectKey)
  /-- A stored pod is handled as one that was added. -/
  | join (now : Nat) (key : ObjectKey)

namespace Incident

def Proper (m : Manager) : Incident → Prop
  | k8sEvent e => e.Brings fun o => m.Regular (.k8s o)
  | pcnEvent e => e.Brings fun o => m.Regular (.pcn o)
  | deploy p => m.Regular p
  | remove _ key => '#' ∉ key.name.toList
  | join _ _ => True

def pod? : Incident → Option ObjectKey
  | join _ key => some key
  | _ => none

end Incident

/-- A manager with the policies whose present version is still to be handled. -/
structure Course where
  manager : Manager
  unhandled : List (Dialect × ObjectKey)

namespace Course

open Manager (Result)

/-- What is still to be handled once a policy was handled in some version, `none`
for a removal. If this is not the stored version, the policy has to be handled
again. -/
def handled (c : Course) (dialect : Dialect) (key : ObjectKey) (version : Option Policy) :
    List (Dialect × ObjectKey) :=
  if c.manager.policy? dialect key = version then c.unhandled.filter (· ≠ (dialect, key))
  else (dialect, key) :: c.unhandled

def step (c : Course) : Incident → Result × Course
  | .k8sEvent e =>
    match c.manager.k8sPolicies.ingest e with
    | (store, changed) =>
      (.ok (), ⟨{ c.manager with k8sPolicies := store },
        changed.map (Dialect.k8s, ·) ++ c.unhandled⟩)
  | .pcnEvent e =>
    match c.manager.pcnPolicies.ingest e with
    | (store, changed) =>
      (.ok (), ⟨{ c.manager with pcnPolicies := store },
        changed.map (Dialect.pcn, ·) ++ c.unhandled⟩)
  | .deploy p =>
    match c.manager.deployPolicy p with
    | (out, m) =>
      (out, ⟨m, p.key?.elim c.unhandled fun key => c.handled p.dialect key (some p)⟩)
  | .remove dialect key =>
    match c.manager.removePolicy dialect key with
    | (out, m) => (out, ⟨m, c.handled dialect key none⟩)
  | .join now key =>
    match c.manager.cluster.pods.get? key with
    | none => (.ok (), c)
    | some v =>
      match c.manager.onPod now key ⟨.added, some v, none⟩ with
      | (out, m) => (out, ⟨m, c.unhandled⟩)

def run (c : Course) (incidents : List Incident) : Course :=
  incidents.foldl (fun c i => (c.step i).2) c

def succeeds (c : Course) : List Incident → Bool
  | [] => true
  | i :: rest => (c.step i).1.toBool && (c.step i).2.succeeds rest

end Course

namespace Manager

variable {m m' m'' : Manager}

def home? (m : Manager) (key : ObjectKey) : Option PodGroup :=
  m.homeOf ((m.cluster.pods.get? key).map (·.object.body))

def HomeOf (m : Manager) (pods : List ObjectKey) (group : PodGroup) : Prop :=
  ∃ key ∈ pods, m.home? key = some group

structure Alike (m m' : Manager) : Prop where
  node : m'.node = m.node
  ignored : m'.ignored = m.ignored
  range : m'.range = m.range
  cluster : m'.cluster = m.cluster

namespace Alike

theorem refl (m : Manager) : m.Alike m := ⟨rfl, rfl, rfl, rfl⟩

theorem symm (h : m.Alike m') : m'.Alike m :=
  ⟨h.node.symm, h.ignored.symm, h.range.symm, h.cluster.symm⟩

theorem trans (h : m.Alike m') (h' : m'.Alike m'') : m.Alike m'' :=
  ⟨h'.node.trans h.node, h'.ignored.trans h.ignored, h'.range.trans h.range,
    h'.cluster.trans h.cluster⟩

theorem homeOf (h : m.Alike m') (pod : Option Pod) : m'.homeOf pod = m.homeOf pod := by
  have hmonitors : m'.monitors = m.monitors := by
    funext p
    rw [monitors, monitors, h.node, h.ignored]
  rw [Manager.homeOf, Manager.homeOf, hmonitors]

theorem home? (h : m.Alike m') (key : ObjectKey) : m'.home? key = m.home? key := by
  rw [Manager.home?, Manager.home?, h.homeOf, h.cluster]

theorem regular (h : m.Alike m') {p : Policy} (hp : m.Regular p) : m'.Regular p :=
  hp.congr h.cluster

end Alike

end Manager

namespace Course

open Fleet (Grows Steps)

variable {c c' : Course} {m : Manager} {pods pods' : List ObjectKey} {dialect : Dialect}
  {key : ObjectKey} {incidents : List Incident}

/-- What incidents keep: the cluster, regular policies in the stores, a firewall
for each group of the pods that were handled, and the agreement with all policies
that are not still to be handled. -/
structure Kept (m : Manager) (pods : List ObjectKey) (c : Course) : Prop where
  alike : m.Alike c.manager
  stocked : c.manager.Stocked
  grown : Grows (fun group o => o.Fits group) (m.HomeOf pods) m.fleet c.manager.fleet
  groups : ∀ group, (c.manager.fleet.ledger? group).isSome ↔ m.HomeOf pods group
  agrees : ∀ dialect key, (dialect, key) ∉ c.unhandled →
    ∀ group : PodGroup, group.namespaceName = key.namespaceName →
      c.manager.Agrees dialect key.name group

/-- A manager without groups starts a course. -/
theorem kept_start (hnone : m.fleet = .empty m.fleet.backend) (hstocked : m.Stocked) :
    Kept m [] ⟨m, []⟩ := by
  have hledger (group : PodGroup) : m.fleet.ledger? group = none := by
    rw [hnone]
    rfl
  refine ⟨.refl m, hstocked, .refl, fun group => ?_, fun dialect key _ group _ l hl => ?_⟩
  · simp [hledger, Manager.HomeOf]
  · rw [hledger] at hl
    cases hl

namespace Kept

theorem fitting (h : c.Kept m pods) (hnone : m.fleet = .empty m.fleet.backend) :
    c.manager.fleet.Fitting := by
  refine h.grown.fitting ?_
  rw [hnone]
  exact nofun

theorem k8s (h : c.Kept m pods) :
    c.manager.k8sPolicies.Supplied fun o => m.Regular (.k8s o) :=
  h.stocked.k8s.mono fun _ ho => h.alike.symm.regular ho

theorem pcn (h : c.Kept m pods) :
    c.manager.pcnPolicies.Supplied fun o => m.Regular (.pcn o) :=
  h.stocked.pcn.mono fun _ ho => h.alike.symm.regular ho

/-- The stores of policies may change, if the policies that change are to be
handled. -/
theorem restocked (h : c.Kept m pods) (halike : c.manager.Alike c'.manager)
    (hfleet : c'.manager.fleet = c.manager.fleet)
    (hk8s : c'.manager.k8sPolicies.Supplied fun o => m.Regular (.k8s o))
    (hpcn : c'.manager.pcnPolicies.Supplied fun o => m.Regular (.pcn o))
    (hpolicies : ∀ dialect key, (dialect, key) ∉ c'.unhandled → (dialect, key) ∉ c.unhandled ∧
      c'.manager.policy? dialect key = c.manager.policy? dialect key) : c'.Kept m pods := by
  have halike' := h.alike.trans halike
  refine ⟨halike', ⟨hk8s.mono fun _ ho => halike'.regular ho, hpcn.mono fun _ ho =>
    halike'.regular ho⟩, hfleet ▸ h.grown, fun group => hfleet ▸ h.groups group,
    fun dialect key hkey group hgroup => ?_⟩
  obtain ⟨hkey, hpolicy⟩ := hpolicies dialect key hkey
  have hplace : (⟨group.namespaceName, key.name⟩ : ObjectKey) = key := by rw [hgroup]
  exact (h.agrees dialect key hkey group hgroup).congr (by rw [hfleet]) (by rw [hplace, hpolicy])
    halike.cluster halike.range

/-- The firewalls may be worked on, if this leads to agreement. -/
theorem worked (h : c.Kept m pods) (hpods : ∀ group, m.HomeOf pods group → m.HomeOf pods' group)
    {f : Fleet} {unhandled : List (Dialect × ObjectKey)}
    (hgrown : Grows (fun group o => o.Fits group) (m.HomeOf pods') c.manager.fleet f)
    (hgroups : ∀ group, (f.ledger? group).isSome ↔ m.HomeOf pods' group)
    (hagrees : ∀ dialect key, (dialect, key) ∉ unhandled →
      ∀ group : PodGroup, group.namespaceName = key.namespaceName →
        (c.manager.withFleet f).Agrees dialect key.name group) :
    Kept m pods' ⟨c.manager.withFleet f, unhandled⟩ where
  alike := h.alike.trans ⟨rfl, rfl, rfl, rfl⟩
  stocked := h.stocked.withFleet f
  grown := (h.grown.mono hpods).trans hgrown
  groups := hgroups
  agrees := hagrees

theorem operated (h : c.Kept m pods) {f : Fleet} {unhandled : List (Dialect × ObjectKey)}
    (hsteps : Steps (fun group o => o.Fits group) c.manager.fleet f)
    (hagrees : ∀ dialect key, (dialect, key) ∉ unhandled →
      ∀ group : PodGroup, group.namespaceName = key.namespaceName →
        (c.manager.withFleet f).Agrees dialect key.name group) :
    Kept m pods ⟨c.manager.withFleet f, unhandled⟩ :=
  h.worked (fun _ => id) (Grows.refl.steps hsteps)
    (fun group => by rw [hsteps.isSome_ledger?, h.groups]) hagrees

/-! ### Incidents -/

theorem k8sEvent (h : c.Kept m pods) {e : WatchEvent NetworkPolicy.Spec}
    (he : e.Brings fun o => m.Regular (.k8s o)) : (c.step (.k8sEvent e)).2.Kept m pods := by
  refine h.restocked ⟨rfl, rfl, rfl, rfl⟩ rfl (h.k8s.ingest he) h.pcn fun dialect key hkey => ?_
  obtain ⟨hchanged, hkey⟩ := not_or.1 (mt List.mem_append.2 hkey)
  refine ⟨hkey, ?_⟩
  cases dialect with
  | pcn => rfl
  | k8s =>
    have hsame : (c.manager.k8sPolicies.ingest e).1.get? key = c.manager.k8sPolicies.get? key :=
      Store.get?_ingest_of_not_mem fun hmem => hchanged (List.mem_map_of_mem hmem)
    exact congrArg (Option.map fun v => Policy.k8s v.object) hsame

theorem pcnEvent (h : c.Kept m pods) {e : WatchEvent PolycubePolicy.Body}
    (he : e.Brings fun o => m.Regular (.pcn o)) : (c.step (.pcnEvent e)).2.Kept m pods := by
  refine h.restocked ⟨rfl, rfl, rfl, rfl⟩ rfl h.k8s (h.pcn.ingest he) fun dialect key hkey => ?_
  obtain ⟨hchanged, hkey⟩ := not_or.1 (mt List.mem_append.2 hkey)
  refine ⟨hkey, ?_⟩
  cases dialect with
  | k8s => rfl
  | pcn =>
    have hsame : (c.manager.pcnPolicies.ingest e).1.get? key = c.manager.pcnPolicies.get? key :=
      Store.get?_ingest_of_not_mem fun hmem => hchanged (List.mem_map_of_mem hmem)
    exact congrArg (Option.map fun v => Policy.pcn v.object) hsame

end Kept

/-- What is not to be handled after a policy was handled. -/
theorem not_mem_handled {dialect' : Dialect} {key' : ObjectKey} {version : Option Policy}
    (h : (dialect', key') ∉ c.handled dialect key version) :
    (dialect' = dialect ∧ key' = key) ∧ c.manager.policy? dialect key = version ∨
      ¬(dialect' = dialect ∧ key' = key) ∧ (dialect', key') ∉ c.unhandled := by
  by_cases hsame : dialect' = dialect ∧ key' = key
  · refine .inl ⟨hsame, ?_⟩
    obtain ⟨rfl, rfl⟩ := hsame
    by_contra hversion
    rw [handled, if_neg hversion] at h
    exact h List.mem_cons_self
  · refine .inr ⟨hsame, fun hmem => h ?_⟩
    unfold handled
    split
    · exact List.mem_filter.2 ⟨hmem, decide_eq_true fun heq => hsame (Prod.mk.inj heq)⟩
    · exact List.mem_cons_of_mem _ hmem

namespace Kept

theorem deploy (h : c.Kept m pods) (hnone : m.fleet = .empty m.fleet.backend) {p : Policy}
    (hp : m.Regular p) (hok : (c.step (.deploy p)).1 = .ok ()) :
    (c.step (.deploy p)).2.Kept m pods := by
  have hm := h.fitting hnone
  have hregular := h.alike.regular hp
  have hrest := Manager.rest_deployPolicy c.manager p
  have hstep : (c.step (.deploy p)).2 = ⟨(c.manager.deployPolicy p).2,
      p.key?.elim c.unhandled fun key => c.handled p.dialect key (some p)⟩ := rfl
  rw [hstep, hrest]
  refine h.operated (Manager.fits_deployPolicy hregular) fun dialect key hkey group hgroup => ?_
  rw [← hrest]
  have hplace : (⟨group.namespaceName, key.name⟩ : ObjectKey) = key := by rw [hgroup]
  have hother (hkey : (dialect, key) ∉ c.unhandled)
      (hother : ∀ key', p.key? = some key' → ¬(dialect = p.dialect ∧ key = key')) :
      (c.manager.deployPolicy p).2.Agrees dialect key.name group := by
    refine (h.agrees dialect key hkey group hgroup).deployPolicy hm hp.plainName hok
      fun key' hkey' hsame => hother key' hkey' ⟨hsame.1.symm, ?_⟩
    rw [hsame.2, hplace]
  cases hself : p.key? with
  | none =>
    rw [hself] at hkey
    exact hother hkey fun key' hkey' => by rw [hself] at hkey'; cases hkey'
  | some key' =>
    rw [hself] at hkey
    -- a policy that was deployed in another version than the stored one is to be handled again
    rcases not_mem_handled hkey with ⟨⟨rfl, rfl⟩, hstored⟩ | ⟨hne, hkey⟩
    · exact Manager.agrees_deployPolicy hm hself hstored hok hgroup
    · refine hother hkey fun key'' hkey'' => ?_
      rw [hself, Option.some.injEq] at hkey''
      exact hkey'' ▸ hne

theorem remove (h : c.Kept m pods) (hnone : m.fleet = .empty m.fleet.backend)
    (hfree : '#' ∉ key.name.toList) (hok : (c.step (.remove dialect key)).1 = .ok ()) :
    (c.step (.remove dialect key)).2.Kept m pods := by
  have hm := h.fitting hnone
  refine h.operated (Manager.fits_removePolicy c.manager dialect key)
    fun dialect' key' hkey group hgroup => ?_
  have hplace : (⟨group.namespaceName, key'.name⟩ : ObjectKey) = key' := by rw [hgroup]
  rcases not_mem_handled hkey with ⟨⟨rfl, rfl⟩, hstored⟩ | ⟨hne, hkey⟩
  · exact Manager.agrees_removePolicy hm hstored hok hgroup
  · refine (h.agrees dialect' key' hkey group hgroup).removePolicy hm hfree hok
      fun hsame => hne ⟨hsame.1.symm, ?_⟩
    rw [hsame.2, hplace]

theorem join (h : c.Kept m pods) (hnone : m.fleet = .empty m.fleet.backend) {now : Nat}
    (hok : (c.step (.join now key)).1 = .ok ()) :
    (c.step (.join now key)).2.Kept m (pods ++ [key]) := by
  have hhomes (group : PodGroup) : m.HomeOf (pods ++ [key]) group ↔
      m.HomeOf pods group ∨ m.home? key = some group := by
    simp [Manager.HomeOf, or_and_right, exists_or]
  rcases hpod : c.manager.cluster.pods.get? key with _ | v <;>
    simp only [Course.step, hpod] at hok ⊢
  · have hnowhere : m.home? key = none := by
      rw [← h.alike.home?, Manager.home?, hpod]
      rfl
    have hsame : m.HomeOf (pods ++ [key]) = m.HomeOf pods := by
      funext group
      simp [hhomes, hnowhere]
    exact ⟨h.alike, h.stocked, hsame ▸ h.grown, hsame ▸ h.groups, h.agrees⟩
  · have hhome : c.manager.homeOf (some v.object.body) = m.home? key := by
      rw [← h.alike.home?, Manager.home?, hpod]
      rfl
    have hm := h.fitting hnone
    obtain ⟨hgrown, hgroups⟩ := Manager.grows_onPod hm h.stocked hok fun group hgroup =>
      (hhomes group).2 (.inr (hhome ▸ hgroup))
    have hrest := (Manager.keeps_onPod (m := c.manager)
      (Ledger.Applies.invariant fun _ => True) (fun _ _ => trivial) now key
      ⟨.added, some v, none⟩).rest
    rw [hrest]
    refine h.worked (fun group hgroup => (hhomes group).2 (.inl hgroup)) hgrown
      (fun group => ?_) fun dialect key' hkey group hgroup => ?_
    · rw [hgroups, h.groups, hhomes]
      exact or_congr_right (by rw [← hhome]; rfl)
    · have hagrees := Manager.Agrees.onPod hm h.stocked (h.agrees dialect key' hkey) hok
      rw [hrest] at hagrees
      exact hagrees group hgroup

/-- An incident without failure keeps what is kept. -/
theorem step (h : c.Kept m pods) (hnone : m.fleet = .empty m.fleet.backend) {i : Incident}
    (hi : i.Proper m) (hok : (c.step i).1 = .ok ()) :
    (c.step i).2.Kept m (pods ++ i.pod?.toList) := by
  cases i with
  | k8sEvent e => exact (List.append_nil pods).symm ▸ h.k8sEvent hi
  | pcnEvent e => exact (List.append_nil pods).symm ▸ h.pcnEvent hi
  | deploy p => exact (List.append_nil pods).symm ▸ h.deploy hnone hi hok
  | remove dialect key => exact (List.append_nil pods).symm ▸ h.remove hnone hi hok
  | join now key => exact h.join hnone hok

/-- A course without failure keeps what its incidents keep. -/
theorem run (h : c.Kept m pods) (hnone : m.fleet = .empty m.fleet.backend)
    (hproper : ∀ i ∈ incidents, i.Proper m) (hok : c.succeeds incidents = true) :
    (c.run incidents).Kept m (pods ++ incidents.filterMap Incident.pod?) := by
  induction incidents generalizing c pods with
  | nil => exact (List.append_nil pods).symm ▸ h
  | cons i rest ih =>
    obtain ⟨hi, hrest⟩ := List.forall_mem_cons.1 hproper
    rw [succeeds, Bool.and_eq_true] at hok
    have hlater := ih (h.step hnone hi (Manager.eq_ok_of_toBool hok.1)) hrest hok.2
    have hpods : pods ++ (i :: rest).filterMap Incident.pod? =
        pods ++ i.pod?.toList ++ rest.filterMap Incident.pod? := by
      rw [List.append_assoc]
      cases hpod : i.pod? <;> simp [hpod]
    rwa [hpods]

end Kept

end Course

end PodFirewall
