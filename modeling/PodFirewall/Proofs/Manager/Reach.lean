import PodFirewall.Proofs.Manager.Steps

/-!
What a manager can come to. It starts without firewalls; policies are deployed
and removed, and changes of pods, namespaces and services are handled, in any
order and whatever fails, while its stores and the service that holds the
firewalls change in any way. Nothing of this makes a record apply that is not
part of a policy.
-/

namespace PodFirewall

namespace Policy

/-- Whether the name of a policy is without the mark that ends the prefixes of
names of records. -/
def PlainName (p : Policy) : Prop := '#' ∉ (p.metadata.name.getD "").toList

def Supplies (P : Record → Prop) (p : Policy) : Prop :=
  ∀ service rs, p.records service = .ok rs → ∀ r ∈ rs, P r

theorem PlainName.supplies {p : Policy} (h : p.PlainName) : p.Supplies Record.WellNamed := by
  intro service rs hrs r hr
  obtain ⟨head, hhead, hof⟩ := records_ok hrs
  refine (hof r hr).wellNamed ?_
  rw [hhead.name]
  exact h

end Policy

namespace Manager

open Fleet (Steps)

variable {m m' m'' : Manager} {P : Record → Prop} {I : Ledger → Prop} {p : Policy}

theorem failures_eq_ok {what : String} {n : Nat} : failures what n = .ok () ↔ n = 0 := by
  unfold failures
  split <;> simp_all

theorem eq_ok_of_toBool {r : Result} (h : r.toBool = true) : r = .ok () := by
  cases r with
  | ok => rfl
  | error e => cases h

theorem records_some {rs : List Record} (h : m.records p = .ok (some rs)) :
    ∃ service, p.records service = .ok rs := by
  have hsome {service : Option Service} (h : (p.records service).toOption = some rs) :
      p.records service = .ok rs := by
    cases hrs : p.records service with
    | error e =>
      rw [hrs] at h
      cases h
    | ok rs' =>
      rw [hrs] at h
      rw [Option.some.inj h]
  unfold records at h
  split at h
  · cases h
  · exact ⟨none, hsome (Except.ok.inj h)⟩
  · split at h
    · cases h
    · exact ⟨_, hsome (Except.ok.inj h)⟩

def wanted (m : Manager) (p : Policy) (group : PodGroup) : List Record :=
  match m.records p with
  | .ok (some records) =>
    records.filter fun r => r.subject.covers group.namespaceName group.labels
  | _ => []

theorem wanted_of_records {rs : List Record} (h : m.records p = .ok (some rs)) (group : PodGroup) :
    m.wanted p group =
      rs.filter fun r => r.subject.covers group.namespaceName group.labels := by
  rw [wanted, h]

theorem mem_wanted {group : PodGroup} {r : Record} : r ∈ m.wanted p group ↔
    ∃ rs, m.records p = .ok (some rs) ∧ r ∈ rs ∧
      r.subject.covers group.namespaceName group.labels = true := by
  unfold wanted
  rcases m.records p with e | _ | rs <;> simp

def Compiled (m : Manager) (r : Record) : Prop :=
  ∃ ns, ∃ p ∈ m.policiesIn ns, ∃ rs, m.records p = .ok (some rs) ∧ r ∈ rs

theorem compiled_of_wanted {ns : String} {group : PodGroup} {r : Record} (hp : p ∈ m.policiesIn ns)
    (hr : r ∈ m.wanted p group) : m.Compiled r := by
  obtain ⟨rs, hrs, hr, -⟩ := mem_wanted.1 hr
  exact ⟨ns, p, hp, rs, hrs, hr⟩

abbrev withFleet (m : Manager) (f : Fleet) : Manager := { m with fleet := f }

structure Keeps (I : Ledger → Prop) (m m' : Manager) : Prop where
  rest : m' = { m with fleet := m'.fleet }
  all : m.fleet.All I → m'.fleet.All I

namespace Keeps

theorem refl (m : Manager) : Keeps I m m := ⟨rfl, id⟩

theorem trans (h : Keeps I m m') (h' : Keeps I m' m'') : Keeps I m m'' := by
  refine ⟨?_, fun hm => h'.all (h.all hm)⟩
  rw [h'.rest, h.rest]

theorem policiesIn (h : Keeps I m m') (ns : String) : m'.policiesIn ns = m.policiesIn ns := by
  rw [h.rest]
  rfl

theorem cluster (h : Keeps I m m') : m'.cluster = m.cluster := by
  rw [h.rest]

theorem range (h : Keeps I m m') : m'.range = m.range := by
  rw [h.rest]

end Keeps

/-! ### Policies -/

theorem steps_removePolicy (m : Manager) (dialect : Dialect) (key : ObjectKey) :
    Steps (fun _ o => o.Asks P) m.fleet (m.removePolicy dialect key).2.fleet :=
  steps_forEach (fun _ _ f => steps_removeFrom trivial f) 0 m.fleet

theorem steps_deployPolicy (hp : p.Supplies P) :
    Steps (fun _ o => o.Asks P) m.fleet (m.deployPolicy p).2.fleet := by
  unfold deployPolicy
  split
  · exact .refl
  · split
    · exact .refl
    · exact steps_removePolicy m _ _
    · rename_i key _ _ rs hrs
      obtain ⟨service, hservice⟩ := records_some hrs
      refine steps_forEach (fun group _ f => ?_) 0 m.fleet
      refine (steps_deployTo ..).mono fun _ o ⟨_, ho⟩ => ?_
      cases o with
      | apply record rules => exact hp service rs hservice record ho
      | cease name => trivial
      | ceaseParent dialect parent => trivial

/-- What is kept by refreshing each record that applies, a refresh keeps. -/
theorem refresh_keeps (Inv : Refresh → Prop) (Q : PodGroup → Record → Prop)
    (affected : Record → Bool)
    (happlied : ∀ r group l, Inv r → r.fleet.ledger? group = some l → ∀ d,
      ∀ a ∈ l.applied.get d, Q group a.record)
    (hrecord : ∀ r group record, Inv r → Q group record →
      Inv (refreshRecord m.resolver group r record)) (hm : Inv ⟨[], 0, m.fleet⟩) :
    ∃ r, Inv r ∧
      m.refresh affected = (failures "peer refresh" r.failed, { m with fleet := r.fleet }) := by
  have hrecords (group : PodGroup) (records : List Record) (hQ : ∀ record ∈ records, Q group record)
      {r : Refresh} (hr : Inv r) : Inv (records.foldl (refreshRecord m.resolver group) r) := by
    induction records generalizing r with
    | nil => exact hr
    | cons record rest ih =>
      obtain ⟨hfirst, hrest⟩ := List.forall_mem_cons.1 hQ
      exact ih hrest (hrecord r group record hr hfirst)
  have hgroup (group : PodGroup) {r : Refresh} (hr : Inv r) :
      Inv (refreshGroup m.resolver affected r group) := by
    unfold refreshGroup
    split
    · exact hr
    · rename_i s hsite
      refine hrecords group _ (fun record hmem => ?_) hr
      obtain ⟨d, a, ha, rfl⟩ := Deployed.mem_appliedRecords.1 (List.mem_filter.1 hmem).1
      exact happlied r group _ hr (Fleet.ledger?_of_site? hsite) d a ha
  have hgroups (groups : List PodGroup) {r : Refresh} (hr : Inv r) :
      Inv (groups.foldl (refreshGroup m.resolver affected) r) := by
    induction groups generalizing r with
    | nil => exact hr
    | cons group rest ih => exact ih (hgroup group hr)
  exact ⟨_, hgroups m.fleet.groups.keys hm, rfl⟩

theorem fleet_cached (resolver : Resolver) (record : Record) (r : Refresh) :
    (cached resolver record r).2.fleet = r.fleet := by
  unfold cached
  dsimp only
  split <;> rfl

theorem mem_policiesIn_of_targeting {key : ObjectKey} (h : p ∈ m.targeting key) :
    p ∈ m.policiesIn key.namespaceName := by
  unfold targeting Store.list at h
  unfold policiesIn Store.list
  simp only [List.mem_append, List.mem_map, List.mem_filter, Bool.and_eq_true] at h ⊢
  obtain ⟨v, ⟨hv, ⟨hlives, -⟩, -⟩, rfl⟩ := h
  exact .inr ⟨v, ⟨hv, hlives⟩, rfl⟩

theorem keeps_sweep (m : Manager) (now timeout : Nat) : Keeps I m (m.sweep now timeout).2 where
  rest := rfl
  all hm group l hl := by
    rcases Fleet.ledger?_destroyEach
      (m.fleet.groups.toList.filter fun e => Fleet.expired now timeout e.2) m.fleet group with h | h
    · exact hm group l (h ▸ hl)
    · have hnone : (m.sweep now timeout).2.fleet.ledger? group = none := h
      rw [hnone] at hl
      cases hl

section Keeps

variable (hI : Ledger.Invariant P I)

include hI

theorem keeps_removePolicy (m : Manager) (dialect : Dialect) (key : ObjectKey) :
    Keeps I m (m.removePolicy dialect key).2 :=
  ⟨rfl, fun hm => (steps_removePolicy m dialect key).all hm hI fun _ _ h => h⟩

theorem keeps_deployPolicy (hp : p.Supplies P) : Keeps I m (m.deployPolicy p).2 := by
  refine ⟨?_, fun hm => (steps_deployPolicy hp).all hm hI fun _ _ h => h⟩
  unfold deployPolicy
  split
  · rfl
  · split <;> rfl

theorem keeps_deployEach {policies : List Policy} (hp : ∀ p ∈ policies, p.Supplies P)
    (out : Result) (m : Manager) : Keeps I m (deployEach policies out m).2 := by
  induction policies generalizing out m with
  | nil => exact .refl m
  | cons p rest ih =>
    obtain ⟨hp, hrest⟩ := List.forall_mem_cons.1 hp
    have hdeployed := keeps_deployPolicy hI (m := m) hp
    unfold deployEach
    split <;> rename_i hdeploy <;> rw [hdeploy] at hdeployed <;>
      exact hdeployed.trans (ih hrest _ _)

theorem all_attempt (group : PodGroup) {f : Fleet} (hf : f.All I) {record : Record}
    (hrecord : P record) (rules : List Rule) :
    (attempt f group (·.step (.apply record rules))).2.All I := by
  have hsteps : Steps (fun _ o => o.Asks P) f (attempt f group (·.step (.apply record rules))).2 :=
    steps_attempt f hrecord
  exact hsteps.all hf hI fun _ _ h => h

theorem all_applyEach (resolver : Resolver) {records : List Record} (hp : ∀ r ∈ records, P r)
    (group : PodGroup) (n : Nat) {f : Fleet} (hf : f.All I) :
    (applyEach group (resolveAll resolver records) n f).2.All I := by
  have hsteps : Steps (fun _ o => o.Asks P) f
      (applyEach group (resolveAll resolver records) n f).2 := by
    refine steps_applyEach (fun r hr rules _ => ?_) n f
    obtain ⟨record, hrecord, rfl⟩ := List.mem_map.1 hr
    exact hp record hrecord
  exact hsteps.all hf hI fun _ _ h => h

theorem all_syncEach {policies : List Policy} {group : PodGroup}
    (hp : ∀ p ∈ policies, ∀ r ∈ m.wanted p group, P r) (n : Nat) {f : Fleet} (hf : f.All I) :
    (m.syncEach group policies n f).2.All I := by
  induction policies generalizing n f with
  | nil => exact hf
  | cons p rest ih =>
    obtain ⟨hp, hrest⟩ := List.forall_mem_cons.1 hp
    unfold syncEach
    split
    · exact hf
    · exact ih hrest n hf
    · rename_i rs hrs
      rw [wanted_of_records hrs] at hp
      exact ih hrest _ (all_applyEach hI m.resolver hp group n hf)

theorem keeps_syncGroup {group : PodGroup}
    (hp : ∀ p ∈ m.policiesIn group.namespaceName, ∀ r ∈ m.wanted p group, P r)
    (firewall : String) : Keeps I m (m.syncGroup group firewall).2 := by
  have hall (hm : m.fleet.All I) := all_syncEach hI hp 0 hm
  unfold syncGroup
  split <;> rename_i hsync <;> rw [hsync] at hall <;> exact ⟨rfl, hall⟩

/-! ### Changes of the cluster -/

theorem all_refreshRecord (resolver : Resolver) (group : PodGroup) {r : Refresh}
    (hr : r.fleet.All I) {record : Record} (hrecord : P record) :
    (refreshRecord resolver group r record).fleet.All I := by
  have hfleet := fleet_cached resolver record r
  unfold refreshRecord
  split <;> rename_i hcached <;> rw [hcached] at hfleet <;> dsimp only at hfleet ⊢ <;>
    rw [hfleet]
  · exact hr
  · exact all_attempt hI group hr hrecord _

theorem keeps_refresh (m : Manager) (affected : Record → Bool) :
    Keeps I m (m.refresh affected).2 := by
  refine ⟨rfl, fun hm => ?_⟩
  obtain ⟨r, hr, hrefresh⟩ := refresh_keeps (fun r => r.fleet.All I) (fun _ => P) affected
    (fun r group l hr hl => hI.records l (hr group l hl))
    (fun r group record hr => all_refreshRecord hI m.resolver group hr) hm
  rw [hrefresh]
  exact hr

theorem keeps_regroup (hp : ∀ r, m.Compiled r → P r) (now : Nat) (key : ObjectKey)
    (new : Option Pod) : Keeps I m (m.regroup now key new).2 := by
  unfold regroup
  split
  · refine ⟨rfl, fun hm group l hl => hm group l ?_⟩
    rwa [← Fleet.ledger?_release now key none m.fleet m.fleet.backend]
  · rename_i pod _
    have hadd (hm : m.fleet.All I) := hm.addPod hI now (PodGroup.ofPod pod) key
    dsimp only
    split <;> rename_i hadded <;> rw [hadded] at hadd
    · exact ⟨rfl, hadd⟩
    · rename_i membership f
      split
      · have hwanted : ∀ p ∈ m.policiesIn (PodGroup.ofPod pod).namespaceName,
            ∀ r ∈ m.wanted p (PodGroup.ofPod pod), P r :=
          fun p hpol r hr => hp r (compiled_of_wanted hpol hr)
        have hsync := keeps_syncGroup hI (m := { m with fleet := f }) hwanted membership.firewall
        have hjoined : Keeps I m { m with fleet := f } := ⟨rfl, hadd⟩
        have hsync := hjoined.trans hsync
        split <;> rename_i hsynced <;> rw [hsynced] at hsync
        · exact hsync
        · refine ⟨?_, fun hm group l hl => hsync.all hm group l ?_⟩
          · have hrest := hsync.rest
            dsimp only at hrest ⊢
            rw [hrest]
          · rwa [← Fleet.ledger?_markSynced]
      · exact ⟨rfl, hadd⟩

theorem keeps_onPod (hp : ∀ r, m.Compiled r → P r) (now : Nat) (key : ObjectKey)
    (change : Change (Stored Pod)) : Keeps I m (m.onPod now key change).2 := by
  have hgrouped := keeps_regroup hI hp now key (change.new.map (·.object.body))
  unfold onPod
  dsimp only
  split <;> rename_i hregroup <;> rw [hregroup] at hgrouped
  · exact hgrouped
  · split
    · exact hgrouped
    · split
      · exact hgrouped
      · exact hgrouped.trans (keeps_refresh hI _ _)

theorem keeps_onNamespace (m : Manager) (change : Change (Stored Namespace)) :
    Keeps I m (m.onNamespace change).2 := by
  unfold onNamespace
  dsimp only
  split
  · exact .refl m
  · exact keeps_refresh hI m _

theorem keeps_onService (hp : ∀ ns, ∀ p ∈ m.policiesIn ns, p.Supplies P) (key : ObjectKey)
    (change : Change (Stored Service)) : Keeps I m (m.onService key change).2 := by
  have hdeployed := keeps_deployEach hI
    (fun p h => hp key.namespaceName p (mem_policiesIn_of_targeting h)) (.ok ()) m
  unfold onService
  dsimp only
  split
  · exact hdeployed
  · split
    · exact hdeployed
    · split <;> exact hdeployed.trans (keeps_refresh hI _ _)

end Keeps

/-! ### Managers that can be reached -/

def Stores (Q : Policy → Prop) (m : Manager) : Prop := ∀ ns, ∀ p ∈ m.policiesIn ns, Q p

/-- Whether a manager came about by what it is asked to do, whatever fails, and
by changes from elsewhere, with policies of a kind only. -/
inductive Reached (Q : Policy → Prop) : Manager → Prop where
  | start {m : Manager} (b : Backend) : m.Stores Q → Reached Q { m with fleet := .empty b }
  | deploy {m : Manager} {p : Policy} : Reached Q m → Q p → Reached Q (m.deployPolicy p).2
  | remove {m : Manager} (dialect : Dialect) (key : ObjectKey) :
      Reached Q m → Reached Q (m.removePolicy dialect key).2
  | pod {m : Manager} (now : Nat) (key : ObjectKey) (change : Change (Stored Pod)) :
      Reached Q m → Reached Q (m.onPod now key change).2
  | space {m : Manager} (change : Change (Stored Namespace)) :
      Reached Q m → Reached Q (m.onNamespace change).2
  | service {m : Manager} (key : ObjectKey) (change : Change (Stored Service)) :
      Reached Q m → Reached Q (m.onService key change).2
  | sweep {m : Manager} (now timeout : Nat) : Reached Q m → Reached Q (m.sweep now timeout).2
  | stores {m m' : Manager} : Reached Q m → m'.Stores Q → Reached Q { m' with fleet := m.fleet }
  | elsewhere {m : Manager} (b : Backend) :
      Reached Q m → Reached Q { m with fleet := { m.fleet with backend := b } }

/-- What is kept by operations with records of the policies holds of all
ledgers. -/
theorem Reached.all {Q : Policy → Prop} (h : m.Reached Q) (hI : Ledger.Invariant P I)
    (hQ : ∀ p, Q p → p.Supplies P) : m.Stores Q ∧ m.fleet.All I := by
  have hkeeps {m m' : Manager} (hkeeps : Keeps I m m') (hm : m.Stores Q ∧ m.fleet.All I) :
      m'.Stores Q ∧ m'.fleet.All I := by
    refine ⟨fun ns p hp => hm.1 ns p ?_, hkeeps.all hm.2⟩
    rwa [← hkeeps.policiesIn]
  induction h with
  | start b hm => exact ⟨hm, by intro group l hl; cases hl⟩
  | deploy _ hp ih => exact hkeeps (keeps_deployPolicy hI (hQ _ hp)) ih
  | remove dialect key _ ih => exact hkeeps (keeps_removePolicy hI _ dialect key) ih
  | pod now key change _ ih =>
    refine hkeeps (keeps_onPod hI (fun r hr => ?_) now key change) ih
    obtain ⟨ns, p, hp, rs, hrs, hr⟩ := hr
    obtain ⟨service, hservice⟩ := records_some hrs
    exact hQ p (ih.1 ns p hp) service rs hservice r hr
  | space change _ ih => exact hkeeps (keeps_onNamespace hI _ change) ih
  | service key change _ ih =>
    exact hkeeps (keeps_onService hI (fun ns p hp => hQ p (ih.1 ns p hp)) key change) ih
  | sweep now timeout _ ih => exact hkeeps (keeps_sweep _ now timeout) ih
  | stores _ hm ih => exact ⟨hm, ih.2⟩
  | elsewhere b _ ih => exact ⟨ih.1, ih.2⟩

theorem Reached.wellNamed (h : m.Reached Policy.PlainName) :
    m.fleet.All (Ledger.Applies Record.WellNamed) :=
  (h.all (Ledger.Applies.invariant _) fun _ hp => hp.supplies).2

end Manager

end PodFirewall
