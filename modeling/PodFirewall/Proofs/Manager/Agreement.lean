import PodFirewall.Proofs.Manager.Currency
import PodFirewall.Proofs.Manager.Fitting

/-!
Firewalls that agree with the stored policies. Whether the firewall of a group
agrees with a stored policy does not depend on how it came to: deploying the
stored version of the policy makes it agree, and so does applying the policies
of a new group, while deploying or removing other policies and resolving records
anew leave the agreement alone. The latter holds even if other records apply
that are out of date, for their names tell them from those of the policy.
-/

namespace PodFirewall

namespace Manager

open Fleet (Steps Exchanged)

variable {m : Manager} {p : Policy} {group group' : PodGroup} {dialect : Dialect}
  {parent : String} {key : ObjectKey} {r r' : Record}

/-! ### Stored policies -/

def policy? (m : Manager) (dialect : Dialect) (key : ObjectKey) : Option Policy :=
  match dialect with
  | .k8s => (m.k8sPolicies.get? key).map fun v => .k8s v.object
  | .pcn => (m.pcnPolicies.get? key).map fun v => .pcn v.object

/-- The records that the stored policy of a name asks for on the firewall of a
group. -/
def asked (m : Manager) (dialect : Dialect) (parent : String) (group : PodGroup) : List Record :=
  match m.policy? dialect ⟨group.namespaceName, parent⟩ with
  | some p => m.wanted p group
  | none => []

theorem mem_policiesIn {ns : String} :
    p ∈ m.policiesIn ns ↔ p.metadata.namespaceName = some ns ∧
      ∃ key, m.policy? p.dialect key = some p := by
  have hlist {α : Type} (s : Store α) (v : Stored α) : v ∈ s.list (Cluster.livesIn ns) ↔
      (∃ key, s.get? key = some v) ∧ v.object.metadata.namespaceName = some ns := by
    rw [Store.mem_list, Cluster.livesIn, beq_iff_eq]
  have hstored {α : Type} (s : Store α) (make : Kube.Object α → Policy)
      (hmake : ∀ o, (make o).metadata = o.metadata) :
      (∃ v ∈ s.list (Cluster.livesIn ns), make v.object = p) ↔
        p.metadata.namespaceName = some ns ∧
          ∃ key, (s.get? key).map (fun v => make v.object) = some p := by
    simp only [hlist, Option.map_eq_some_iff]
    constructor
    · rintro ⟨v, ⟨⟨key, hkey⟩, hns⟩, rfl⟩
      exact ⟨(congrArg _ (hmake v.object)).trans hns, key, v, hkey, rfl⟩
    · rintro ⟨hns, key, v, hkey, rfl⟩
      exact ⟨v, ⟨⟨key, hkey⟩, (congrArg _ (hmake v.object)).symm.trans hns⟩, rfl⟩
  unfold policiesIn
  rw [List.mem_append, List.mem_map, List.mem_map, hstored _ .k8s fun _ => rfl,
    hstored _ .pcn fun _ => rfl, ← and_or_left]
  refine and_congr_right fun _ => ?_
  cases p <;> simp [policy?, Policy.dialect]

/-- The records that a policy asks for are told apart by their names. -/
theorem eq_of_wanted (hr : r ∈ m.wanted p group) (hr' : r' ∈ m.wanted p group')
    (hname : r.name = r'.name) : r = r' := by
  obtain ⟨rs, hrs, hr, -⟩ := mem_wanted.1 hr
  obtain ⟨rs', hrs', hr', -⟩ := mem_wanted.1 hr'
  rw [hrs, Except.ok.injEq, Option.some.injEq] at hrs'
  obtain ⟨service, hservice⟩ := records_some hrs
  obtain ⟨head, -, hlisted⟩ := Policy.records_listed hservice
  exact hlisted.eq_of_name hr (hrs' ▸ hr') hname

theorem namespaceName_of_wanted (hr : r ∈ m.wanted p group) :
    p.metadata.namespaceName = some r.subject.namespaceName := by
  obtain ⟨rs, hrs, hr, -⟩ := mem_wanted.1 hr
  obtain ⟨service, hservice⟩ := records_some hrs
  obtain ⟨head, hhead, hof⟩ := Policy.records_ok hservice
  rw [(hof r hr).subject]
  exact hhead.namespaceName

/-- A stored policy asks for records of different names. -/
theorem eq_of_asked (hns : group.namespaceName = group'.namespaceName)
    (hr : r ∈ m.asked dialect parent group) (hr' : r' ∈ m.asked dialect parent group')
    (hname : r.name = r'.name) : r = r' := by
  rw [asked, ← hns] at hr'
  unfold asked at hr
  split at hr
  · rename_i hp
    rw [hp] at hr'
    exact eq_of_wanted hr hr' hname
  · cases hr

structure Stocked (m : Manager) : Prop where
  k8s : m.k8sPolicies.Supplied fun o => m.Regular (.k8s o)
  pcn : m.pcnPolicies.Supplied fun o => m.Regular (.pcn o)

namespace Stocked

variable (h : m.Stocked)

include h

theorem policy? (hp : m.policy? dialect key = some p) :
    p.dialect = dialect ∧ p.key? = some key ∧ m.Regular p := by
  obtain ⟨k8s, hk8s, hregular⟩ := h.k8s
  obtain ⟨pcn, hpcn, hregular'⟩ := h.pcn
  cases dialect
  · obtain ⟨v, hv, rfl⟩ := Option.map_eq_some_iff.1 hp
    obtain ⟨hamong, hkey⟩ := hk8s.objects key v hv
    exact ⟨rfl, hkey, hregular _ hamong.mem⟩
  · obtain ⟨v, hv, rfl⟩ := Option.map_eq_some_iff.1 hp
    obtain ⟨hamong, hkey⟩ := hpcn.objects key v hv
    exact ⟨rfl, hkey, hregular' _ hamong.mem⟩

theorem mem_asked (hr : r ∈ m.asked dialect parent group) :
    r.PartOf dialect parent ∧ r.Fits group := by
  unfold asked at hr
  split at hr
  · rename_i p hp
    obtain ⟨rfl, hkey, hregular⟩ := h.policy? hp
    refine ⟨?_, hregular.fits group r hr⟩
    have hpart := (partOf_of_wanted hr).2
    rwa [name_of_key? hkey] at hpart
  · cases hr

/-- Of the records that all stored policies ask for, those of a policy are the ones
that this policy asks for. -/
theorem mem_wantedOn (hpart : r.PartOf dialect parent) :
    r ∈ m.wantedOn group ↔ r ∈ m.asked dialect parent group := by
  rw [wantedOn, List.mem_flatMap]
  constructor
  · rintro ⟨p, hp, hr⟩
    obtain ⟨hns, key, hstored⟩ := mem_policiesIn.1 hp
    obtain ⟨-, hkey, -⟩ := h.policy? hstored
    obtain ⟨hdialect, hname⟩ := hpart
    obtain ⟨hdialect', hname'⟩ := (partOf_of_wanted hr).2
    have hplace : key = ⟨group.namespaceName, parent⟩ := by
      rw [← hname, hname', name_of_key? hkey]
      obtain ⟨name, -, rfl⟩ := Option.map_eq_some_iff.1 hkey
      rw [hns]
      rfl
    rw [← hdialect', hdialect, hplace] at hstored
    rwa [asked, hstored]
  · intro hr
    have hfits := (h.mem_asked hr).2
    unfold asked at hr
    split at hr
    · rename_i p hp
      obtain ⟨rfl, -, -⟩ := h.policy? hp
      refine ⟨p, mem_policiesIn.2 ⟨?_, _, hp⟩, hr⟩
      rw [← hfits.namespaceName]
      exact namespaceName_of_wanted hr
    · cases hr

theorem fits_wantedOn : ∀ r ∈ m.wantedOn group, r.Fits group := fun _ hr =>
  (h.mem_asked ((h.mem_wantedOn ⟨rfl, rfl⟩).1 hr)).2

theorem told_wantedOn : ToldApart (m.wantedOn group) := by
  intro r hr r' hr' hname
  have hpart : r.PartOf r.parent.dialect r.parent.name := ⟨rfl, rfl⟩
  have hplaced {r : Record} (hr : r ∈ m.wantedOn group) : r.Placed :=
    (h.fits_wantedOn r hr).wellNamed.placed
  have hpart' := ((hplaced hr).partOf_iff_of_name (hplaced hr') hname).1 hpart
  exact eq_of_asked rfl ((h.mem_wantedOn hpart).1 hr) ((h.mem_wantedOn hpart').1 hr') hname

end Stocked

/-! ### Agreement -/

/-- Whether just those records of a policy apply on the firewall of a group that
its stored version asks for, with the rules that resolving them gives. -/
def Agrees (m : Manager) (dialect : Dialect) (parent : String) (group : PodGroup) : Prop :=
  ∀ l, m.fleet.ledger? group = some l → ∀ d a, a.record.PartOf dialect parent →
    (a ∈ l.applied.get d ↔ a.record.direction = d ∧ a.record ∈ m.asked dialect parent group ∧
      m.resolver.resolve a.record = .ok a.rules)

section Exchanged

variable {f : Fleet} {into : PodGroup → Applied → Prop} {out : PodGroup → Record → Prop}

/-- What is exchanged outside of a policy leaves the agreement with it alone. -/
theorem Agrees.of_exchanged (h : m.Agrees dialect parent group)
    (hexchanged : Exchanged into out m.fleet f)
    (hinto : ∀ a, a.record.PartOf dialect parent → ¬into group a)
    (hout : ∀ l, m.fleet.ledger? group = some l → ∀ d, ∀ a ∈ l.applied.get d,
      a.record.PartOf dialect parent → ¬out group a.record) :
    (m.withFleet f).Agrees dialect parent group := by
  intro l' hl' d a hpart
  have hsome := hexchanged.groups group
  rw [show f.ledger? group = some l' from hl'] at hsome
  obtain ⟨l, hl⟩ := Option.isSome_iff_exists.1 hsome.symm
  refine Iff.trans ?_ (h l hl d a hpart)
  rw [hexchanged.ledgers group l l' hl hl' d a]
  exact ⟨fun ha => (ha.resolve_left fun ha => hinto a hpart ha.2).1,
    fun ha => .inr ⟨ha, hout l hl d a ha hpart⟩⟩

/-- If a policy is taken out and what its stored version asks for is put in, there
is agreement with it. -/
theorem agrees_of_exchanged (hexchanged : Exchanged into out m.fleet f)
    (hinto : ∀ a, a.record.PartOf dialect parent → (into group a ↔
      a.record ∈ m.asked dialect parent group ∧ m.resolver.resolve a.record = .ok a.rules))
    (hout : ∀ l, m.fleet.ledger? group = some l → ∀ d, ∀ a ∈ l.applied.get d,
      a.record.PartOf dialect parent → out group a.record) :
    (m.withFleet f).Agrees dialect parent group := by
  intro l' hl' d a hpart
  have hsome := hexchanged.groups group
  rw [show f.ledger? group = some l' from hl'] at hsome
  obtain ⟨l, hl⟩ := Option.isSome_iff_exists.1 hsome.symm
  rw [hexchanged.ledgers group l l' hl hl' d a, hinto a hpart]
  exact ⟨fun ha => ha.resolve_right fun ha => ha.2 (hout l hl d a ha.1 hpart), .inl⟩

end Exchanged

/-! ### Deploying and removing policies -/

theorem rest_deployPolicy (m : Manager) (p : Policy) :
    (m.deployPolicy p).2 = m.withFleet (m.deployPolicy p).2.fleet :=
  (keeps_deployPolicy Ledger.Neat.invariant (supplies_placed p)).rest

theorem partOf_of_supersedes (hp : p.PlainName) (hr : r.WellNamed)
    (h : m.Supersedes p group r) : r.PartOf p.dialect (p.metadata.name.getD "") := by
  unfold Supersedes at h
  split at h
  · exact (hr.belongsTo_iff hp).1 h
  · exact h

/-- After the stored version of a policy was deployed with success, there is
agreement with it. -/
theorem agrees_deployPolicy (hm : m.fleet.Fitting) (hkey : p.key? = some key)
    (hstored : m.policy? p.dialect key = some p) (hok : (m.deployPolicy p).1 = .ok ())
    (hgroup : group.namespaceName = key.namespaceName) :
    (m.deployPolicy p).2.Agrees p.dialect key.name group := by
  rw [rest_deployPolicy]
  have hasked : m.asked p.dialect key.name group = m.wanted p group := by
    have hplace : (⟨group.namespaceName, key.name⟩ : ObjectKey) = key := by rw [hgroup]
    rw [asked, hplace, hstored]
  refine agrees_of_exchanged (exchanged_deployPolicy hkey hm.neat hok) (fun a _ => ?_)
    fun l hl d a ha hpart => ⟨hgroup, ?_⟩
  · rw [hasked]
    exact and_iff_right hgroup
  · rw [← name_of_key? hkey] at hpart
    exact supersedes_of_partOf (hm.neat group l hl |>.2 d a ha) hpart

/-- Deploying a policy leaves the agreement with other policies alone. -/
theorem Agrees.deployPolicy (h : m.Agrees dialect parent group) (hm : m.fleet.Fitting)
    (hp : p.PlainName) (hok : (m.deployPolicy p).1 = .ok ())
    (hother : ∀ key, p.key? = some key → ¬(p.dialect = dialect ∧
      key = ⟨group.namespaceName, parent⟩)) :
    (m.deployPolicy p).2.Agrees dialect parent group := by
  rw [rest_deployPolicy]
  cases hkey : p.key? with
  | none =>
    have hnone : (m.deployPolicy p).2 = m := by
      unfold Manager.deployPolicy
      rw [hkey]
    rw [hnone]
    exact h
  | some key =>
    have hapart {r : Record} (hgroup : group.namespaceName = key.namespaceName)
        (hpart : r.PartOf dialect parent)
        (hpart' : r.PartOf p.dialect (p.metadata.name.getD "")) : False := by
      rw [name_of_key? hkey] at hpart'
      refine hother key hkey ⟨hpart'.1.symm.trans hpart.1, ?_⟩
      rw [hgroup, ← hpart.2, hpart'.2]
    refine h.of_exchanged (exchanged_deployPolicy hkey hm.neat hok) ?_ ?_
    · rintro a hpart ⟨hgroup, hwanted, -⟩
      exact hapart hgroup hpart (partOf_of_wanted hwanted).2
    · rintro l hl d a ha hpart ⟨hgroup, hsupersedes⟩
      exact hapart hgroup hpart
        (partOf_of_supersedes hp ((hm group l hl).2 d a ha).wellNamed hsupersedes)

/-- After a policy that is not stored was removed with success, there is
agreement with that. -/
theorem agrees_removePolicy (hm : m.fleet.Fitting) (hnone : m.policy? dialect key = none)
    (hok : (m.removePolicy dialect key).1 = .ok ())
    (hgroup : group.namespaceName = key.namespaceName) :
    (m.removePolicy dialect key).2.Agrees dialect key.name group := by
  have hasked : m.asked dialect key.name group = [] := by
    have hplace : (⟨group.namespaceName, key.name⟩ : ObjectKey) = key := by rw [hgroup]
    rw [asked, hplace, hnone]
  refine agrees_of_exchanged (exchanged_removePolicy dialect hm.neat hok) (fun a _ => ?_)
    fun l hl d a ha hpart => ⟨hgroup, ?_⟩
  · simp [hasked]
  · exact (hm.neat group l hl |>.2 d a ha).belongsTo hpart

/-- Removing a policy leaves the agreement with other policies alone. -/
theorem Agrees.removePolicy (h : m.Agrees dialect parent group) (hm : m.fleet.Fitting)
    {dialect' : Dialect} (hfree : '#' ∉ key.name.toList)
    (hok : (m.removePolicy dialect' key).1 = .ok ())
    (hother : ¬(dialect' = dialect ∧ key = ⟨group.namespaceName, parent⟩)) :
    (m.removePolicy dialect' key).2.Agrees dialect parent group := by
  refine h.of_exchanged (exchanged_removePolicy dialect' hm.neat hok) (by simp) ?_
  rintro l hl d a ha hpart ⟨hgroup, hname⟩
  have hpart' := (((hm group l hl).2 d a ha).wellNamed.belongsTo_iff hfree).1 hname
  refine hother ⟨hpart'.1.symm.trans hpart.1, ?_⟩
  rw [hgroup, ← hpart.2, hpart'.2]

/-! ### Applying the policies of a group -/

/-- The records of all stored policies are put on the firewall of a group. -/
theorem exchanged_syncGroup (hstocked : m.Stocked) (hm : m.fleet.Fitting) {firewall : String}
    (hok : (m.syncGroup group firewall).1 = .ok ()) :
    (m.syncGroup group firewall).2 = m.withFleet (m.syncGroup group firewall).2.fleet ∧
      Exchanged
        (fun g a => g = group ∧ a.record ∈ m.wantedOn group ∧
          m.resolver.resolve a.record = .ok a.rules)
        (fun g r => g = group ∧ r.name ∈ (m.wantedOn group).map (·.name)) m.fleet
        (m.syncGroup group firewall).2.fleet := by
  obtain ⟨hdone, hsynced⟩ := syncGroup_ok hok
  have hplaced : ∀ r ∈ m.wantedOn group, r.Placed := fun r hr =>
    (hstocked.fits_wantedOn r hr).wellNamed.placed
  rw [hsynced]
  exact ⟨rfl, (exchanged_applyEach hplaced hstocked.told_wantedOn hm.neat hdone).2⟩

/-- After the policies of a group were applied with success, there is agreement
with each of them, provided that no other records of them applied before. -/
theorem agrees_syncGroup (hstocked : m.Stocked) (hm : m.fleet.Fitting) {firewall : String}
    (hok : (m.syncGroup group firewall).1 = .ok ())
    (hbefore : ∀ l, m.fleet.ledger? group = some l → ∀ d, ∀ a ∈ l.applied.get d,
      a.record.PartOf dialect parent → a.record ∈ m.asked dialect parent group) :
    (m.syncGroup group firewall).2.Agrees dialect parent group := by
  obtain ⟨hrest, hexchanged⟩ := exchanged_syncGroup hstocked hm hok
  rw [hrest]
  refine agrees_of_exchanged hexchanged (fun a hpart => ?_) fun l hl d a ha hpart => ⟨rfl, ?_⟩
  · rw [hstocked.mem_wantedOn hpart]
    exact and_iff_right rfl
  · exact List.mem_map_of_mem ((hstocked.mem_wantedOn hpart).2 (hbefore l hl d a ha hpart))

theorem Agrees.syncGroup (h : m.Agrees dialect parent group') (hstocked : m.Stocked)
    (hm : m.fleet.Fitting) (hne : group' ≠ group) {firewall : String}
    (hok : (m.syncGroup group firewall).1 = .ok ()) :
    (m.syncGroup group firewall).2.Agrees dialect parent group' := by
  obtain ⟨hrest, hexchanged⟩ := exchanged_syncGroup hstocked hm hok
  rw [hrest]
  exact h.of_exchanged hexchanged (fun _ _ ha => hne ha.1) fun _ _ _ _ _ _ ha => hne ha.1

/-! ### Refreshing -/

/-- Whether a record fits a group and, if it is part of a policy of a namespace, is
one that the stored version of this policy asks for. -/
def Timely (m : Manager) (dialect : Dialect) (parent ns : String) (group : PodGroup)
    (r : Record) : Prop :=
  r.Fits group ∧
    (group.namespaceName = ns → r.PartOf dialect parent → r ∈ m.asked dialect parent group)

/-- A timely record that is applied with the rules of one with its name leaves the
agreement with the policy alone. -/
theorem Agrees.attempt {f : Fleet} {record known : Record} {rules : List Rule} {ns : String}
    (h : (m.withFleet f).Agrees dialect parent group) (hgroup : group.namespaceName = ns)
    (hf : f.Fitting) {group' home : PodGroup} (hrecord : m.Timely dialect parent ns group' record)
    (hknown : m.Timely dialect parent ns home known)
    (hns : known.subject.namespaceName = record.subject.namespaceName)
    (hname : known.name = record.name) (hrules : m.resolver.resolve known = .ok rules)
    (hok : (Manager.attempt f group' (·.step (.apply record rules))).1 = 0) :
    (m.withFleet (Manager.attempt f group' (·.step (.apply record rules))).2).Agrees dialect
      parent group := by
  have hplaced := hrecord.1.wellNamed.placed
  have hexchanged := exchanged_attempt_apply hf.neat hplaced hok
  by_cases happlies : group = group' ∧ record.PartOf dialect parent
  · obtain ⟨rfl, hpart⟩ := happlies
    have hasked := hrecord.2 hgroup hpart
    have hpart' : known.PartOf dialect parent :=
      (hknown.1.wellNamed.placed.partOf_iff_of_name hplaced hname).2 hpart
    have hhome : home.namespaceName = group.namespaceName := by
      rw [← hknown.1.namespaceName, hns, hrecord.1.namespaceName]
    -- the policy asks for both records, so they are the same
    rw [eq_of_asked hhome (hknown.2 (hhome.trans hgroup) hpart') hasked hname] at hrules
    intro l' hl' d a ha
    have hsome := hexchanged.groups group
    rw [show (Manager.attempt f group (·.step (.apply record rules))).2.ledger? group = some l'
      from hl'] at hsome
    obtain ⟨l, hl⟩ := Option.isSome_iff_exists.1 hsome.symm
    rw [hexchanged.ledgers group l l' hl hl' d a]
    constructor
    · rintro (⟨hd, -, rfl⟩ | ⟨ha', -⟩)
      · exact ⟨hd, hasked, hrules⟩
      · exact (h l hl d a ha).1 ha'
    · rintro ⟨hd, hasked', hrules'⟩
      by_cases hsame : a.record.name = record.name
      · have hrecord := eq_of_asked rfl hasked' hasked hsame
        have hrules : a.rules = rules := by
          rw [hrecord] at hrules'
          exact Except.ok.inj (hrules'.symm.trans hrules)
        refine .inl ⟨hd, rfl, ?_⟩
        rw [← hrecord, ← hrules]
      · exact .inr ⟨(h l hl d a ha).2 ⟨hd, hasked', hrules'⟩, fun h => hsame h.2⟩
  · refine h.of_exchanged hexchanged ?_ ?_
    · rintro a hpart ⟨hgroup, rfl⟩
      exact happlies ⟨hgroup, hpart⟩
    · rintro l hl d a ha hpart ⟨hgroup, hsame⟩
      refine happlies ⟨hgroup, ?_⟩
      exact (((hf group l hl).2 d a ha).wellNamed.placed.partOf_iff_of_name hplaced hsame).1 hpart

/-- A refresh that succeeds leaves the agreement with a policy alone, also if it
resolves records of other policies that are out of date. -/
theorem Agrees.refresh {ns : String} (hm : m.fleet.Fitting)
    (h : ∀ group, group.namespaceName = ns → m.Agrees dialect parent group)
    {affected : Record → Bool} (hok : (m.refresh affected).1 = .ok ()) :
    ∀ group, group.namespaceName = ns → (m.refresh affected).2.Agrees dialect parent group := by
  have htimely : m.fleet.Suits (m.Timely dialect parent ns) := fun group l hl =>
    ⟨(hm group l hl).1, fun d a ha => ⟨(hm group l hl).2 d a ha, fun hgroup hpart =>
      ((h group hgroup l hl d a hpart).1 ha).2.1⟩⟩
  obtain ⟨r, ⟨-, -, hagrees⟩, hrefresh⟩ := refresh_keeps (m := m)
    (fun r => Recalls (fun record => ∃ group, m.Timely dialect parent ns group record)
        m.resolver r ∧
      r.fleet.Suits (m.Timely dialect parent ns) ∧
      (r.failed = 0 → ∀ group, group.namespaceName = ns →
        (m.withFleet r.fleet).Agrees dialect parent group))
    (m.Timely dialect parent ns) affected
    (fun r group l ⟨_, hsuits, _⟩ hl d a ha => (hsuits group l hl).2 d a ha)
    (fun r group' record ⟨hr, hsuits, hagrees⟩ hrecord => by
      obtain ⟨hrecalls, ⟨hfleet, hfailed⟩ |
        ⟨known, rules, ⟨home, hknown⟩, hns, hname, hrules, hfleet, hfailed⟩⟩ :=
          refreshRecord_cases group' ⟨group', hrecord⟩ hr <;>
        rw [hfleet, hfailed]
      · exact ⟨hrecalls, hsuits, nofun⟩
      · refine ⟨hrecalls, hsuits.steps (steps_attempt _ hrecord), fun hzero group hgroup => ?_⟩
        obtain ⟨hzero, hdone⟩ := Nat.add_eq_zero_iff.1 hzero
        have hfits : r.fleet.Fitting := fun g l hl =>
          ⟨(hsuits g l hl).1, fun d a ha => ((hsuits g l hl).2 d a ha).1⟩
        exact (hagrees hzero group hgroup).attempt hgroup hfits hrecord hknown hns hname hrules
          hdone)
    ⟨nofun, htimely, fun _ => h⟩
  rw [hrefresh] at hok ⊢
  exact hagrees (failures_eq_ok.1 hok)

end Manager

end PodFirewall
