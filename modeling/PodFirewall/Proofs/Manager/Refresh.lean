import PodFirewall.Proofs.Firewall.Entries
import PodFirewall.Proofs.Manager.Reach
import PodFirewall.Proofs.Resolve.Locality

/-!
Resolving applied records anew. `Fleet.Renewed` says of two fleets which records
have fresh rules and that all others are as they were; it is read off one record
that is applied with success, and composes over the records of a group and over
the groups. A refresh resolves each name of a namespace once, which is enough
since the name of a record of a stored policy tells it. What a change of a pod
renews are the records of a group that is not in step with the policies yet, and
those that the change concerns.
-/

namespace PodFirewall

theorem Ledger.Tidy.invariant (P : Record → Prop) :
    Ledger.Invariant P fun l => l.Tidy ∧ l.Applies P where
  fresh l hrules happlied := by
    have hnone (d : Direction) : l.applied.get d = [] := by rw [happlied]; cases d <;> rfl
    refine ⟨⟨fun d => ?_, fun d => ?_⟩, (Applies.invariant P).fresh l hrules happlied⟩
    · rw [hnone]
      exact .nil
    · rw [hnone]
      simp
  step s o ho hs := ⟨Site.tidy_step hs.1 o, (Applies.invariant P).step s o ho hs.2⟩
  records l hl := hl.2

namespace Fleet

/-- Whether the records of a kind have the rules that resolving them gives, and
all others are as they were. -/
def Renewed (resolver : Resolver) (which : PodGroup → Record → Prop) (f f' : Fleet) : Prop :=
  ∀ group l', f'.ledger? group = some l' → ∀ d, ∀ a ∈ l'.applied.get d,
    which group a.record ∧ resolver.resolve a.record = .ok a.rules ∨
      ¬which group a.record ∧ ∃ l, f.ledger? group = some l ∧ a ∈ l.applied.get d

namespace Renewed

variable {resolver : Resolver} {which which' : PodGroup → Record → Prop} {f f' f'' : Fleet}

theorem of_same (h : ∀ group l', f'.ledger? group = some l' →
    f.ledger? group = some l' ∨ l'.applied = ⟨[], []⟩) :
    Renewed resolver (fun _ _ => False) f f' := by
  intro group l' hl' d a ha
  rcases h group l' hl' with hl | hempty
  · exact .inr ⟨id, l', hl, ha⟩
  · rw [hempty] at ha
    cases d <;> cases ha

theorem refl (f : Fleet) : Renewed resolver (fun _ _ => False) f f := of_same fun _ _ => .inl

theorem trans (h : Renewed resolver which f f') (h' : Renewed resolver which' f' f'') :
    Renewed resolver (fun group r => which group r ∨ which' group r) f f'' := by
  intro group l'' hl'' d a ha
  rcases h' group l'' hl'' d a ha with ⟨hwhich, hrules⟩ | ⟨hnot, l', hl', ha⟩
  · exact .inl ⟨.inr hwhich, hrules⟩
  · rcases h group l' hl' d a ha with ⟨hwhich, hrules⟩ | ⟨hnot', l, hl, ha⟩
    · exact .inl ⟨.inl hwhich, hrules⟩
    · exact .inr ⟨fun hwhich => hwhich.elim hnot' hnot, l, hl, ha⟩

/-- Another word for the kind need only mean the same for records that
applied before. -/
theorem congr (h : Renewed resolver which f f') (himp : ∀ group r, which group r → which' group r)
    (hback : ∀ group l, f.ledger? group = some l → ∀ d, ∀ a ∈ l.applied.get d,
      which' group a.record → which group a.record) : Renewed resolver which' f f' := by
  intro group l' hl' d a ha
  rcases h group l' hl' d a ha with ⟨hwhich, hrules⟩ | ⟨hnot, l, hl, ha⟩
  · exact .inl ⟨himp _ _ hwhich, hrules⟩
  · exact .inr ⟨fun hwhich => hnot (hback group l hl d a ha hwhich), l, hl, ha⟩

end Renewed

end Fleet

namespace Manager

open Fleet (Renewed)

variable {m : Manager} {resolver : Resolver} {f : Fleet} {group : PodGroup} {P : Record → Prop}

/-! ### Records of stored policies -/

theorem eq_of_key {k8s : List NetworkPolicy} {pcn : List PolycubePolicy}
    (hk8s : m.k8sPolicies.FedBy k8s) (hpcn : m.pcnPolicies.FedBy pcn) {ns ns' : String}
    {p p' : Policy} (hp : p ∈ m.policiesIn ns) (hp' : p' ∈ m.policiesIn ns')
    (hdialect : p.dialect = p'.dialect) {key : ObjectKey} (hkey : p.key? = some key)
    (hkey' : p'.key? = some key) : p = p' := by
  have hstored {α : Type} {s : Store α} {arrived : List (Kube.Object α)} (hs : s.FedBy arrived)
      {ns : String} {v : Stored α} (hv : v ∈ s.list (Cluster.livesIn ns))
      (hkey : v.object.metadata.key? = some key) : s.get? key = some v := by
    obtain ⟨⟨key', hkey'⟩, -⟩ := Store.mem_list.1 hv
    have hself := (hs.objects key' v hkey').2
    rw [hkey, Option.some.injEq] at hself
    rwa [hself]
  unfold policiesIn at hp hp'
  rw [List.mem_append, List.mem_map, List.mem_map] at hp hp'
  rcases hp with ⟨v, hv, rfl⟩ | ⟨v, hv, rfl⟩ <;> rcases hp' with ⟨v', hv', rfl⟩ | ⟨v', hv', rfl⟩
  · rw [Option.some.inj ((hstored hk8s hv hkey).symm.trans (hstored hk8s hv' hkey'))]
  · cases hdialect
  · cases hdialect
  · rw [Option.some.inj ((hstored hpcn hv hkey).symm.trans (hstored hpcn hv' hkey'))]

theorem key?_of_heads {k8s : List NetworkPolicy} {pcn : List PolycubePolicy}
    (hk8s : m.k8sPolicies.FedBy k8s) (hpcn : m.pcnPolicies.FedBy pcn) {ns : String} {p : Policy}
    (hp : p ∈ m.policiesIn ns) {head : Record.Header} (hhead : p.Heads head) :
    p.key? = some ⟨head.subject.namespaceName, head.parent.name⟩ := by
  have hkey : ∃ key, p.key? = some key := by
    unfold policiesIn at hp
    rw [List.mem_append, List.mem_map, List.mem_map] at hp
    rcases hp with ⟨v, hv, rfl⟩ | ⟨v, hv, rfl⟩ <;> obtain ⟨⟨key, hkey⟩, -⟩ := Store.mem_list.1 hv
    · exact ⟨key, (hk8s.objects key v hkey).2⟩
    · exact ⟨key, (hpcn.objects key v hkey).2⟩
  obtain ⟨key, hkey⟩ := hkey
  rw [hkey]
  obtain ⟨name, hname, rfl⟩ := Option.map_eq_some_iff.1 hkey
  rw [hhead.name, hname, hhead.namespaceName]
  rfl

/-- A record of a stored policy is told by its namespace and its name. -/
theorem Compiled.eq {k8s : List NetworkPolicy} {pcn : List PolycubePolicy}
    (hk8s : m.k8sPolicies.FedBy k8s) (hpcn : m.pcnPolicies.FedBy pcn) {r r' : Record}
    (hr : m.Compiled r) (hr' : m.Compiled r')
    (hns : r.subject.namespaceName = r'.subject.namespaceName) (hname : r.name = r'.name) :
    r = r' := by
  obtain ⟨ns, p, hp, rs, hrs, hr⟩ := hr
  obtain ⟨ns', p', hp', rs', hrs', hr'⟩ := hr'
  obtain ⟨_, hservice⟩ := records_some hrs
  obtain ⟨_, hservice'⟩ := records_some hrs'
  obtain ⟨head, hhead, hlisted⟩ := Policy.records_listed hservice
  obtain ⟨head', hhead', hlisted'⟩ := Policy.records_listed hservice'
  have hsame : p = p' := by
    have hkey := key?_of_heads hk8s hpcn hp hhead
    have hkey' := key?_of_heads hk8s hpcn hp' hhead'
    rw [← (hlisted'.isOf hr').subject, ← hns, (hlisted.isOf hr).subject] at hkey'
    obtain ⟨_, _, _, _, rfl⟩ := hlisted.isOf hr
    obtain ⟨_, _, _, _, rfl⟩ := hlisted'.isOf hr'
    obtain ⟨hdialect, hparent, -⟩ := Record.nameAt_inj hname
    rw [← hparent] at hkey'
    refine eq_of_key hk8s hpcn hp hp' ?_ hkey hkey'
    rw [← hhead.dialect, hdialect, hhead'.dialect]
  subst hsame
  rw [hrs, Except.ok.injEq, Option.some.injEq] at hrs'
  subst hrs'
  exact hlisted.eq_of_name hr hr' hname

/-! ### Applying records -/

theorem renewed_attempt (hf : f.All Ledger.Tidy) {record : Record} {rules : List Rule}
    (hrules : resolver.resolve record = .ok rules)
    (hok : (attempt f group (·.step (.apply record rules))).1 = 0) :
    Renewed resolver (fun g r => g = group ∧ r = record) f
      (attempt f group (·.step (.apply record rules))).2 := by
  intro group' l' hl' d a ha
  rcases attempt_cases f group (.apply record rules) with ⟨hnone, hattempt⟩ |
    ⟨s, hsite, hupdate, hdone⟩
  · rw [hattempt] at hl'
    refine .inr ⟨fun ⟨heq, _⟩ => ?_, l', hl', ha⟩
    rw [heq, hnone] at hl'
    cases hl'
  · rw [hupdate] at hl'
    by_cases hgroup : group' = group
    · subst hgroup
      rw [Fleet.ledger?_update_self hsite, Option.some.injEq] at hl'
      subst hl'
      have hl := Fleet.ledger?_of_site? hsite
      rcases Site.mem_applied_apply (hf _ _ hl) (hdone hok) ha with rfl | ⟨ha, hne⟩
      · exact .inl ⟨⟨rfl, rfl⟩, hrules⟩
      · exact .inr ⟨fun ⟨_, heq⟩ => hne heq, s.ledger, hl, ha⟩
    · rw [Fleet.ledger?_update_of_ne _ _ hgroup] at hl'
      exact .inr ⟨fun ⟨heq, _⟩ => hgroup heq, l', hl', ha⟩

section Renewed

variable {I : Ledger → Prop} (hI : Ledger.Invariant P I) (htidy : ∀ l, I l → l.Tidy)

include hI htidy

theorem renewed_applyEach {records : List Record} (hp : ∀ r ∈ records, P r) {n : Nat}
    (hf : f.All I) (hok : (applyEach group (resolveAll resolver records) n f).1 = 0) :
    n = 0 ∧ Renewed resolver (fun g r => g = group ∧ r ∈ records) f
      (applyEach group (resolveAll resolver records) n f).2 := by
  induction records generalizing n f with
  | nil => exact ⟨hok, (Renewed.refl f).congr (fun _ _ h => h.elim) (by simp)⟩
  | cons record rest ih =>
    obtain ⟨hrecord, hrest⟩ := List.forall_mem_cons.1 hp
    rw [resolveAll, List.map_cons] at hok ⊢
    cases hrules : resolver.resolve record with
    | error e =>
      rw [hrules] at hok
      exact absurd (ih hrest hf hok).1 (Nat.succ_ne_zero n)
    | ok rules =>
      rw [hrules] at hok
      obtain ⟨hcount, hrenewed⟩ := ih hrest (all_attempt hI group hf hrecord rules) hok
      obtain ⟨hn, hdone⟩ := Nat.add_eq_zero_iff.1 hcount
      have hfirst := renewed_attempt (fun g l hl => htidy l (hf g l hl)) hrules hdone
      refine ⟨hn, (hfirst.trans hrenewed).congr ?_ ?_⟩
      · rintro g r (⟨rfl, rfl⟩ | ⟨rfl, hr⟩) <;> simp_all
      · rintro g l - d a - ⟨rfl, hr⟩
        exact (List.mem_cons.1 hr).imp (⟨rfl, ·⟩) (⟨rfl, ·⟩)

theorem renewed_syncEach {policies : List Policy}
    (hp : ∀ p ∈ policies, ∀ r ∈ m.wanted p group, P r) {n : Nat} (hf : f.All I)
    (hok : (m.syncEach group policies n f).1 = .ok 0) :
    n = 0 ∧ Renewed m.resolver (fun g r => g = group ∧ ∃ p ∈ policies, r ∈ m.wanted p group) f
      (m.syncEach group policies n f).2 := by
  induction policies generalizing n f with
  | nil => exact ⟨Except.ok.inj hok, (Renewed.refl f).congr (fun _ _ h => h.elim) (by simp)⟩
  | cons p rest ih =>
    obtain ⟨hp, hrest⟩ := List.forall_mem_cons.1 hp
    unfold syncEach at hok ⊢
    cases hrecords : m.records p with
    | error e =>
      simp only [hrecords] at hok
      cases hok
    | ok found =>
      cases found with
      | none =>
        -- a policy that cannot be enforced asks for no record
        simp only [hrecords] at hok ⊢
        obtain ⟨hn, hrenewed⟩ := ih hrest hf hok
        have hnone : m.wanted p group = [] := by rw [wanted, hrecords]
        refine ⟨hn, hrenewed.congr ?_ ?_⟩
        · rintro g r ⟨rfl, hr⟩
          simp [hnone, hr]
        · rintro g l - d a - ⟨rfl, hr⟩
          simpa [hnone] using hr
      | some records =>
        simp only [hrecords, ← wanted_of_records hrecords group] at hok ⊢
        obtain ⟨hcount, hrenewed⟩ :=
          ih hrest (all_applyEach hI m.resolver hp group n hf) hok
        obtain ⟨hn, hfirst⟩ := renewed_applyEach hI htidy hp hf hcount
        refine ⟨hn, (hfirst.trans hrenewed).congr ?_ ?_⟩
        · rintro g r (⟨rfl, hr⟩ | ⟨rfl, hr⟩)
          · exact ⟨rfl, p, List.mem_cons_self, hr⟩
          · exact ⟨rfl, hr.imp fun _ h => h.imp_left (List.mem_cons_of_mem _)⟩
        · rintro g l - d a - ⟨rfl, p', hp', hr⟩
          rcases List.mem_cons.1 hp' with rfl | hp'
          · exact .inl ⟨rfl, hr⟩
          · exact .inr ⟨rfl, p', hp', hr⟩

end Renewed

/-! ### Refreshing -/

def Recalls (P : Record → Prop) (resolver : Resolver) (r : Refresh) : Prop :=
  ∀ key rules, (key, rules) ∈ r.cache → ∃ record, P record ∧
    key = (record.subject.namespaceName, record.name) ∧
      rules = (resolver.resolve record).toOption

/-- Whether records of a kind are told by their namespaces and names. -/
def ToldByName (P : Record → Prop) : Prop :=
  ∀ r r', P r → P r' → r.subject.namespaceName = r'.subject.namespaceName → r.name = r'.name →
    r = r'

/-- What is taken for the rules of a record are the rules of one with its name. -/
theorem cached_recalls {record : Record} (hrecord : P record) {r : Refresh}
    (hr : Recalls P resolver r) :
    Recalls P resolver (cached resolver record r).2 ∧ ∃ known, P known ∧
      known.subject.namespaceName = record.subject.namespaceName ∧ known.name = record.name ∧
        (cached resolver record r).1 = (resolver.resolve known).toOption := by
  unfold cached
  dsimp only
  split
  · rename_i rules hlookup
    obtain ⟨before, after, hcache, -⟩ := List.lookup_eq_some_iff.1 hlookup
    obtain ⟨known, hknown, hkey, rfl⟩ := hr (record.subject.namespaceName, record.name) rules
      (by rw [hcache]; simp)
    obtain ⟨hns, hname⟩ := Prod.mk.inj hkey
    exact ⟨hr, known, hknown, hns.symm, hname.symm, rfl⟩
  · refine ⟨fun key rules hmem => ?_, record, hrecord, rfl, rfl, rfl⟩
    rcases List.mem_cons.1 hmem with heq | hmem
    · obtain ⟨rfl, rfl⟩ := Prod.mk.inj heq
      exact ⟨record, hrecord, rfl, rfl⟩
    · exact hr key rules hmem

/-- Refreshing a record fails because it cannot be resolved, or applies it with
the rules of a record with its name. -/
theorem refreshRecord_cases (group : PodGroup) {record : Record} (hrecord : P record) {r : Refresh}
    (hr : Recalls P resolver r) :
    Recalls P resolver (refreshRecord resolver group r record) ∧
      ((refreshRecord resolver group r record).fleet = r.fleet ∧
          (refreshRecord resolver group r record).failed = r.failed + 1 ∨
        ∃ known rules, P known ∧ known.subject.namespaceName = record.subject.namespaceName ∧
          known.name = record.name ∧ resolver.resolve known = .ok rules ∧
          (refreshRecord resolver group r record).fleet =
            (attempt r.fleet group (·.step (.apply record rules))).2 ∧
          (refreshRecord resolver group r record).failed =
            r.failed + (attempt r.fleet group (·.step (.apply record rules))).1) := by
  obtain ⟨hrecalls, known, hknown, hns, hname, hrules⟩ := cached_recalls hrecord hr
  have hfleet := fleet_cached resolver record r
  have hfailed : (cached resolver record r).2.failed = r.failed := by
    unfold cached
    dsimp only
    split <;> rfl
  unfold refreshRecord
  rcases hcached : cached resolver record r with ⟨_ | rules, r'⟩ <;>
    rw [hcached] at hrecalls hrules hfleet hfailed <;> dsimp only at hrecalls hrules hfleet hfailed ⊢
  · exact ⟨hrecalls, .inl ⟨hfleet, by rw [hfailed]⟩⟩
  · refine ⟨hrecalls, .inr ⟨known, rules, hknown, hns, hname, ?_, by rw [hfleet]; rfl,
      by rw [hfleet, hfailed]; rfl⟩⟩
    cases hresolve : resolver.resolve known with
    | error e =>
      rw [hresolve] at hrules
      cases hrules
    | ok found =>
      rw [hresolve] at hrules
      rw [Option.some.inj hrules]

def Sound (P : Record → Prop) (I : Ledger → Prop) (resolver : Resolver) (r : Refresh) : Prop :=
  Recalls P resolver r ∧ r.fleet.All I

/-- What a part of a refresh does: what is known stays right, and if nothing
failed then just the records of a kind are resolved anew. -/
structure Refreshes (P : Record → Prop) (I : Ledger → Prop) (resolver : Resolver)
    (which : PodGroup → Record → Prop) (r r' : Refresh) : Prop where
  sound : Sound P I resolver r → Sound P I resolver r'
  renewed : Sound P I resolver r → r'.failed = 0 →
    r.failed = 0 ∧ Renewed resolver which r.fleet r'.fleet

namespace Refreshes

variable {I : Ledger → Prop} {which which' : PodGroup → Record → Prop} {r r' r'' : Refresh}

theorem refl (r : Refresh) : Refreshes P I resolver (fun _ _ => False) r r :=
  ⟨id, fun _ hok => ⟨hok, .refl _⟩⟩

theorem trans (h : Refreshes P I resolver which r r') (h' : Refreshes P I resolver which' r' r'') :
    Refreshes P I resolver (fun group record => which group record ∨ which' group record)
      r r'' where
  sound hr := h'.sound (h.sound hr)
  renewed hr hok := by
    obtain ⟨hok', hrenewed'⟩ := h'.renewed (h.sound hr) hok
    obtain ⟨hok, hrenewed⟩ := h.renewed hr hok'
    exact ⟨hok, hrenewed.trans hrenewed'⟩

theorem congr (h : Refreshes P I resolver which r r')
    (himp : ∀ group record, which group record → which' group record)
    (hback : ∀ group l, r.fleet.ledger? group = some l → ∀ d, ∀ a ∈ l.applied.get d,
      which' group a.record → which group a.record) : Refreshes P I resolver which' r r' :=
  ⟨h.sound, fun hr hok =>
    (h.renewed hr hok).imp_right fun hrenewed => hrenewed.congr himp hback⟩

theorem foldl {β : Type} {step : Refresh → β → Refresh} {kind : β → PodGroup → Record → Prop}
    {xs : List β} (h : ∀ x ∈ xs, ∀ r, Refreshes P I resolver (kind x) r (step r x)) (r : Refresh) :
    Refreshes P I resolver (fun group record => ∃ x ∈ xs, kind x group record) r
      (xs.foldl step r) := by
  induction xs generalizing r with
  | nil => exact (refl r).congr (fun _ _ h => h.elim) (by simp)
  | cons x rest ih =>
    obtain ⟨hx, hrest⟩ := List.forall_mem_cons.1 h
    exact ((hx r).trans (ih hrest _)).congr (by simp) (by simp)

end Refreshes

section Refresh

variable {I : Ledger → Prop} (hI : Ledger.Invariant P I) (htidy : ∀ l, I l → l.Tidy)
  (hnamed : ToldByName P)

include hI htidy hnamed

theorem refreshes_record (group : PodGroup) {record : Record} (hrecord : P record) (r : Refresh) :
    Refreshes P I resolver (fun g r' => g = group ∧ r' = record) r
      (refreshRecord resolver group r record) := by
  refine ⟨fun hr => ⟨(refreshRecord_cases group hrecord hr.1).1,
    all_refreshRecord hI resolver group hr.2 hrecord⟩, fun hr hok => ?_⟩
  rcases (refreshRecord_cases group hrecord hr.1).2 with
    ⟨-, hfailed⟩ | ⟨known, rules, hknown, hns, hname, hresolved, hfleet, hfailed⟩
  · rw [hok] at hfailed
    cases hfailed
  · rw [hok] at hfailed
    obtain ⟨hn, hdone⟩ := Nat.add_eq_zero_iff.1 hfailed.symm
    -- a record of the same name is the record itself
    rw [hnamed known record hknown hrecord hns hname] at hresolved
    rw [hfleet]
    exact ⟨hn, renewed_attempt (fun g l hl => htidy l (hr.2 g l hl)) hresolved hdone⟩

/-- Refreshing the firewall of a group resolves those of its records anew that
satisfy the test. -/
theorem refreshes_group (affected : Record → Bool) (r : Refresh) (group : PodGroup) :
    Refreshes P I resolver (fun g record => g = group ∧ affected record = true) r
      (refreshGroup resolver affected r group) := by
  unfold refreshGroup
  split
  · rename_i hsite
    refine (Refreshes.refl r).congr (fun _ _ h => h.elim) ?_
    rintro g l hl d a - ⟨rfl, -⟩
    rw [Fleet.site?, Option.map_eq_none_iff] at hsite
    rw [Fleet.ledger?, hsite] at hl
    cases hl
  · rename_i s hsite
    have hl := Fleet.ledger?_of_site? hsite
    have hgroup (hr : Sound P I resolver r) : Refreshes P I resolver
        (fun g record => g = group ∧ affected record = true) r
          ((s.appliedRecords.filter affected).foldl (refreshRecord resolver group) r) := by
      have hrecords : ∀ record ∈ s.appliedRecords.filter affected, P record := by
        intro record hmem
        obtain ⟨d, a, ha, rfl⟩ := Deployed.mem_appliedRecords.1 (List.mem_filter.1 hmem).1
        exact hI.records _ (hr.2 group _ hl) d a ha
      refine (Refreshes.foldl (fun record hrecord r =>
        refreshes_record hI htidy hnamed group (hrecords record hrecord) r) r).congr ?_ ?_
      · rintro g record ⟨_, hmem, rfl, rfl⟩
        exact ⟨rfl, (List.mem_filter.1 hmem).2⟩
      · -- a record that applied here is among those looked at
        rintro g l hl' d a ha ⟨rfl, haffected⟩
        rw [hl, Option.some.injEq] at hl'
        subst hl'
        exact ⟨a.record, List.mem_filter.2 ⟨Deployed.mem_appliedRecords.2 ⟨d, a, ha, rfl⟩,
          haffected⟩, rfl, rfl⟩
    exact ⟨fun hr => (hgroup hr).sound hr, fun hr => (hgroup hr).renewed hr⟩

/-- A refresh that succeeds resolves just the records anew that satisfy the
test. -/
theorem renewed_refresh (hm : m.fleet.All I) {affected : Record → Bool}
    (hok : (m.refresh affected).1 = .ok ()) :
    Renewed m.resolver (fun _ r => affected r = true) m.fleet (m.refresh affected).2.fleet := by
  have hrefresh : Refreshes P I m.resolver _ ⟨[], 0, m.fleet⟩ _ := Refreshes.foldl
    (fun group (_ : group ∈ m.fleet.groups.keys) r =>
      refreshes_group hI htidy hnamed affected r group) _
  have hrenewed := (hrefresh.renewed ⟨nofun, hm⟩ (failures_eq_ok.1 hok)).2
  refine hrenewed.congr (fun g r ⟨_, _, _, haffected⟩ => haffected) fun g l hl d a _ haffected => ?_
  refine ⟨g, OrdMap.mem_keys.2 ?_, rfl, haffected⟩
  rw [← Option.isSome_map, ← Fleet.ledger?, hl]
  rfl

end Refresh

/-! ### Changes of pods -/

def homeOf (m : Manager) (pod : Option Pod) : Option PodGroup :=
  (pod.filter m.monitors).map PodGroup.ofPod

/-- Regrouping a pod with success takes it out of its group, or puts it into one
and applies the policies of this group if they are not. -/
theorem regroup_cases (hok : (m.regroup now key new).1 = .ok ()) :
    m.homeOf new = none ∧ (m.regroup now key new).2 = m.withFleet (m.fleet.removePod now key) ∨
      ∃ home membership, m.homeOf new = some home ∧
        (m.fleet.addPod now home key).1 = .ok membership ∧
        (membership.needsSync = false ∧
            (m.regroup now key new).2 = m.withFleet (m.fleet.addPod now home key).2 ∨
          membership.needsSync = true ∧
            ∃ m', (m.withFleet (m.fleet.addPod now home key).2).syncGroup home
                membership.firewall = (.ok (), m') ∧
              (m.regroup now key new).2 = m'.withFleet (m'.fleet.markSynced home)) := by
  unfold regroup at hok ⊢
  rw [homeOf]
  rcases hnew : new.filter m.monitors with _ | pod
  · exact .inl ⟨rfl, rfl⟩
  · rw [hnew] at hok
    dsimp only at hok ⊢
    rcases hadd : m.fleet.addPod now (PodGroup.ofPod pod) key with ⟨e | membership, f⟩ <;>
      rw [hadd] at hok
    · cases hok
    · refine .inr ⟨PodGroup.ofPod pod, membership, rfl, congrArg Prod.fst hadd, ?_⟩
      rw [hadd]
      dsimp only at hok ⊢
      split at hok <;> rename_i hsync
      · rw [if_pos hsync]
        split at hok
        · cases hok
        · rename_i m' hsynced
          exact .inr ⟨hsync, m', hsynced, rfl⟩
      · rw [if_neg hsync]
        exact .inl ⟨eq_false_of_ne_true hsync, rfl⟩

def joins (m : Manager) (pod : Option Pod) (group : PodGroup) : Bool :=
  (pod.filter m.monitors).any fun p =>
    PodGroup.ofPod p == group && (m.fleet.groups.get? group).all fun g => !g.synced

def renews (m : Manager) (change : Change (Stored Pod)) (group : PodGroup) (r : Record) : Bool :=
  (m.joins (change.new.map (·.object.body)) group &&
      (m.policiesIn group.namespaceName).any fun p => (m.wanted p group).contains r) ||
    m.cluster.concerns change r

/-- The firewall of a group that a pod joins is as it was, or is new and has no
records. -/
theorem renewed_addPod (resolver : Resolver) (f : Fleet) (now : Nat) (group : PodGroup)
    (key : ObjectKey) : Renewed resolver (fun _ _ => False) f (f.addPod now group key).2 :=
  Renewed.of_same fun group' l' hl' => by
    rcases Fleet.ledger?_addPod f now group key group' with
      hsame | ⟨-, -, l, hl, -, happlied⟩
    · exact .inl (by rw [← hsame, hl'])
    · rw [hl', Option.some.injEq] at hl
      exact .inr (hl ▸ happlied)

theorem needsSync_addPod {now : Nat} {key : ObjectKey} {membership : Membership}
    (h : (f.addPod now group key).1 = .ok membership) :
    membership.needsSync = (f.groups.get? group).all fun g => !g.synced := by
  have hgroup : (Fleet.release now key (some group) f.groups).get? group =
      f.groups.get? group := by
    rw [Fleet.release, OrdMap.get?_map]
    cases f.groups.get? group <;> simp
  unfold Fleet.addPod at h
  dsimp only at h
  rw [hgroup] at h
  split at h
  · rename_i g hg
    rw [← Except.ok.inj h, hg]
    rfl
  · rename_i hg
    rw [hg]
    split at h
    · cases h
    · rw [← Except.ok.inj h]
      rfl

section Pods

variable {I : Ledger → Prop} (hI : Ledger.Invariant P I) (htidy : ∀ l, I l → l.Tidy)
  (hp : ∀ r, m.Compiled r → P r)

include hI htidy hp

theorem renewed_syncGroup (hm : m.fleet.All I) {firewall : String}
    (hok : (m.syncGroup group firewall).1 = .ok ()) :
    Renewed m.resolver
      (fun g r => g = group ∧ ∃ p ∈ m.policiesIn group.namespaceName, r ∈ m.wanted p group)
      m.fleet (m.syncGroup group firewall).2.fleet := by
  have hwanted : ∀ p ∈ m.policiesIn group.namespaceName, ∀ r ∈ m.wanted p group, P r :=
    fun p hpol r hr => hp r (compiled_of_wanted hpol hr)
  unfold syncGroup at hok ⊢
  split at hok
  · cases hok
  · rename_i failed f hsync
    obtain rfl := failures_eq_ok.1 hok
    have hrenewed := renewed_syncEach hI htidy hwanted (n := 0) hm
    rw [hsync] at hrenewed
    exact (hrenewed rfl).2

theorem renewed_regroup (hm : m.fleet.All I) (now : Nat) (key : ObjectKey) (new : Option Pod)
    (hok : (m.regroup now key new).1 = .ok ()) :
    Renewed m.resolver (fun group r => m.joins new group = true ∧
        ∃ p ∈ m.policiesIn group.namespaceName, r ∈ m.wanted p group)
      m.fleet (m.regroup now key new).2.fleet := by
  have hjoins (group : PodGroup) : m.joins new group = true ↔ m.homeOf new = some group ∧
      ((m.fleet.groups.get? group).all fun g => !g.synced) = true := by
    rw [joins, homeOf]
    cases new.filter m.monitors <;> simp
  have hsame {f f' : Fleet} (h : ∀ group, f'.ledger? group = f.ledger? group) :
      Renewed m.resolver (fun _ _ => False) f f' :=
    Renewed.of_same fun group l' hl' => .inl (by rwa [← h])
  rcases regroup_cases hok with
    ⟨hnone, hrest⟩ | ⟨home, membership, hhome, hadd, ⟨hneeds, hrest⟩ | ⟨hneeds, m', hsync, hrest⟩⟩ <;>
    rw [hrest]
  · have hremoved := hsame (Fleet.ledger?_release now key none m.fleet m.fleet.backend)
    exact hremoved.congr (fun _ _ h => h.elim) (by simp [hjoins, hnone])
  · -- the group is in step with the policies, so the pod does not join it
    rw [needsSync_addPod hadd] at hneeds
    refine (renewed_addPod m.resolver m.fleet now home key).congr (fun _ _ h => h.elim) ?_
    rintro g l - d a - ⟨hjoin, -⟩
    obtain ⟨hg, hneeded⟩ := (hjoins g).1 hjoin
    rw [hhome, Option.some.injEq] at hg
    rw [← hg, hneeds] at hneeded
    cases hneeded
  · rw [needsSync_addPod hadd] at hneeds
    have hrenewed := renewed_syncGroup hI htidy hp
      (m := m.withFleet (m.fleet.addPod now home key).2) (hm.addPod hI now home key)
      (congrArg Prod.fst hsync)
    rw [hsync] at hrenewed
    have hmarked := hsame (Fleet.ledger?_markSynced m'.fleet home)
    refine (((renewed_addPod m.resolver m.fleet now home key).trans hrenewed).trans hmarked).congr
      ?_ ?_
    · rintro g r ((h | ⟨rfl, hr⟩) | h)
      · exact h.elim
      · exact ⟨(hjoins _).2 ⟨hhome, hneeds⟩, hr⟩
      · exact h.elim
    · rintro g l - d a - ⟨hjoin, hr⟩
      obtain ⟨hg, -⟩ := (hjoins g).1 hjoin
      obtain rfl : g = home := Option.some.inj (hg.symm.trans hhome)
      exact .inl (.inr ⟨rfl, hr⟩)

end Pods

/-- Where the pods of a change live, and what is asked of them there. -/
theorem mapM_homes {c : Cluster} (h : c.Ready) (pods : List Pod) :
    ∃ homes, (pods.mapM fun p => (c.namespaceNamed p.namespaceName).map fun n => (p, n)) =
        .ok homes ∧
      ∀ q : Pod → Namespace → Bool, (homes.any fun h => q h.1 h.2) =
        pods.any fun p => (c.namespaceNamed p.namespaceName).toOption.any (q p) := by
  induction pods with
  | nil => exact ⟨[], rfl, fun _ => rfl⟩
  | cons p rest ih =>
    obtain ⟨homes, hrest, hany⟩ := ih
    have hname : ∃ n, c.namespaceNamed p.namespaceName = .ok n := by
      rw [Cluster.namespaceNamed, Cluster.namespacesOf_ok h]
      exact ⟨_, rfl⟩
    obtain ⟨n, hname⟩ := hname
    refine ⟨(p, n) :: homes, ?_, fun q => ?_⟩
    · rw [List.mapM_cons, hrest, hname]
      rfl
    · rw [List.any_cons, List.any_cons, hany, hname]
      rfl

/-- Handling a change of a pod with success resolves just the records anew that
it renews. -/
theorem renewed_onPod {I : Ledger → Prop} (hI : Ledger.Invariant P I)
    (htidy : ∀ l, I l → l.Tidy) (hp : ∀ r, m.Compiled r → P r) (hnamed : ToldByName P)
    (hready : m.cluster.Ready) (hm : m.fleet.All I) {now : Nat} {key : ObjectKey}
    {change : Change (Stored Pod)} (hok : (m.onPod now key change).1 = .ok ()) :
    Renewed m.resolver (fun group r => m.renews change group r = true) m.fleet
      (m.onPod now key change).2.fleet := by
  have hrenews (group : PodGroup) (r : Record) : m.renews change group r = true ↔
      (m.joins (change.new.map (·.object.body)) group = true ∧
        ∃ p ∈ m.policiesIn group.namespaceName, r ∈ m.wanted p group) ∨
      m.cluster.concerns change r = true := by
    simp [renews]
  have hgrouped := keeps_regroup hI hp now key (change.new.map (·.object.body))
  have hrenewed := renewed_regroup hI htidy hp hm now key (change.new.map (·.object.body))
  unfold onPod at hok ⊢
  dsimp only at hok ⊢
  rcases hregroup : m.regroup now key (change.new.map (·.object.body)) with ⟨e | ⟨⟨⟩⟩, m'⟩
  · rw [hregroup] at hok
    cases hok
  · rw [hregroup] at hgrouped hrenewed hok ⊢
    dsimp only at hgrouped hrenewed hok ⊢
    have hfirst := hrenewed rfl
    have hcluster : m'.cluster = m.cluster := by rw [hgrouped.rest]
    have hresolver : m'.resolver = m.resolver := by
      rw [hgrouped.rest]
      rfl
    split at hok <;> rename_i hview
    · -- a change that does not show to peers concerns no record
      rw [if_pos hview]
      have hnone (r : Record) : m.cluster.concerns change r = false := by
        simp [Cluster.concerns, hview]
      exact hfirst.congr (fun g r h => (hrenews g r).2 (.inl h)) fun g l _ d a _ h =>
        ((hrenews g a.record).1 h).resolve_right (by simp [hnone])
    · rw [if_neg hview]
      obtain ⟨homes, hhomes, hany⟩ := mapM_homes (hcluster ▸ hready)
        ((peerView (change.old.map (·.object.body))).toList ++
          (peerView (change.new.map (·.object.body))).toList)
      rw [hhomes] at hok ⊢
      dsimp only at hok ⊢
      have hdiffer : (peerView (change.old.map (·.object.body)) !=
          peerView (change.new.map (·.object.body))) = true := by simpa using hview
      -- the test of the refresh is whether the change concerns a record
      obtain ⟨affected, haffected, hsecond⟩ : ∃ affected : Record → Bool,
          (∀ r, affected r = m.cluster.concerns change r) ∧
            Renewed m.resolver (fun _ r => affected r = true) m'.fleet (m'.refresh _).2.fleet := by
        have hsecond := renewed_refresh hI htidy hnamed (hgrouped.all hm) hok
        rw [hresolver] at hsecond
        refine ⟨_, fun r => ?_, hsecond⟩
        rw [Cluster.concerns, ← hcluster]
        simp only [hdiffer, Bool.true_and]
        cases r.peer with
        | none => rfl
        | some peer => exact hany (mayBe peer)
      exact (hfirst.trans hsecond).congr
        (fun g r h => (hrenews g r).2 (h.imp_right fun h => (haffected r).symm.trans h))
        fun g l _ d a _ h => ((hrenews g a.record).1 h).imp_right fun h => (haffected _).trans h

end Manager

end PodFirewall
