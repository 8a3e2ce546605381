import PodFirewall.Proofs.Manager.Course

/-!
Courses that end alike. When no policy is still to be handled, the firewalls
agree with all stored policies, and this leaves one state for each of them. So
whatever order the incidents came in, and whatever versions the policies went
through, the firewalls of all groups end in the same state if the stored policies
and the pods that were handled are the same in the end; in particular it does not
matter whether a firewall was there before its policies. It does matter that
groups have firewalls of different names: of two groups with one hash, the one
that comes last empties the firewall of the other.
-/

namespace PodFirewall

theorem Dialect.text_inj {dialect dialect' : Dialect} {parent parent' : String}
    (h : dialect.name ++ ":" ++ parent = dialect'.name ++ ":" ++ parent') :
    dialect = dialect' ∧ parent = parent' := by
  have hlist := congrArg String.toList h
  simp only [String.toList_append, List.append_assoc] at hlist
  obtain ⟨hdialect, hrest⟩ := List.append_inj hlist
    ((Dialect.length_name _).trans (Dialect.length_name _).symm)
  exact ⟨Dialect.name_inj hdialect, String.toList_inj.1 (List.append_cancel_left hrest)⟩

namespace Manager

variable {m m' : Manager} {incidents incidents' : List Incident} {group : PodGroup}

/-- The records that the stored policies ask for in a direction are told apart by
their keys. -/
theorem eq_of_orderKey (hstocked : m.Stocked) {r r' : Record} {dialect dialect' : Dialect}
    {parent parent' : String} (hr : r ∈ m.asked dialect parent group)
    (hr' : r' ∈ m.asked dialect' parent' group) (hdirection : r.direction = r'.direction)
    (hkey : r.orderKey = r'.orderKey) : r = r' := by
  obtain ⟨rfl, rfl⟩ := (hstocked.mem_asked hr).1
  obtain ⟨rfl, rfl⟩ := (hstocked.mem_asked hr').1
  obtain ⟨hdialect, hparent⟩ := Dialect.text_inj (congrArg OrderKey.parent hkey)
  rw [← hdialect, ← hparent] at hr'
  unfold asked at hr hr'
  split at hr <;> rename_i hp
  · rw [hp] at hr'
    obtain ⟨rs, hrs, hr, -⟩ := mem_wanted.1 hr
    obtain ⟨rs', hrs', hr', -⟩ := mem_wanted.1 hr'
    rw [hrs, Except.ok.injEq, Option.some.injEq] at hrs'
    obtain ⟨service, hservice⟩ := records_some hrs
    obtain ⟨head, -, hlisted⟩ := Policy.records_listed hservice
    exact hlisted.eq_of_priority hr (hrs' ▸ hr') hdirection (congrArg OrderKey.priority hkey)
  · cases hr

def after (m : Manager) (incidents : List Incident) : Manager :=
  (Course.run ⟨m, []⟩ incidents).manager

def podsOf (incidents : List Incident) : List ObjectKey := incidents.filterMap Incident.pod?

/-- Whether a course with regular policies starts without groups, nothing fails
in it, and all policies are handled in the end. -/
structure Calm (m : Manager) (incidents : List Incident) : Prop where
  unused : m.fleet = .empty m.fleet.backend
  reached : m.fleet.backend.Reached
  stocked : m.Stocked
  proper : ∀ i ∈ incidents, i.Proper m
  succeeds : Course.succeeds ⟨m, []⟩ incidents = true
  fine : (m.after incidents).fleet.backend.failures Call.any = m.fleet.backend.failures Call.any
  handled : (Course.run ⟨m, []⟩ incidents).unhandled = []

def Apart (m : Manager) (pods : List ObjectKey) : Prop :=
  ∀ group group', m.HomeOf pods group → m.HomeOf pods group' →
    group.firewallName = group'.firewallName → group = group'

namespace Calm

variable {dir : String → Direction} {s : Site} {d : Direction} {a : Applied}

theorem kept (h : m.Calm incidents) :
    Course.Kept m (podsOf incidents) (Course.run ⟨m, []⟩ incidents) :=
  (Course.kept_start h.unused h.stocked).run h.unused h.proper h.succeeds

/-- At the end of a calm course all firewalls are in step, if they have different
names. -/
theorem inStep (h : m.Calm incidents) (hapart : m.Apart (podsOf incidents))
    (hdir : ∀ r : Record, r.Placed → r.direction = dir r.name) :
    (m.after incidents).fleet.InStep dir m.fleet.backend := by
  have hempty : m.fleet.InStep dir m.fleet.backend := by
    rw [h.unused]
    exact .empty h.reached
  refine h.kept.grown.inStep hempty (fun _ _ ho => ho.proper hdir) (fun group hsome => ?_) hapart
    h.fine
  rw [h.unused] at hsome
  cases hsome

/-- What applies on a firewall at the end of a calm course. -/
theorem mem_applied (h : m.Calm incidents)
    (hsite : (m.after incidents).fleet.site? group = some s) :
    a ∈ s.ledger.applied.get d ↔ a.record.direction = d ∧
      a.record ∈ (m.after incidents).asked a.record.parent.dialect a.record.parent.name group ∧
      (m.after incidents).resolver.resolve a.record = .ok a.rules :=
  h.kept.agrees _ ⟨group.namespaceName, a.record.parent.name⟩
    (by rw [h.handled]; exact List.not_mem_nil) group rfl s.ledger
    (Fleet.ledger?_of_site? hsite) d a ⟨rfl, rfl⟩

end Calm

/-- Two calm courses of managers with the same cluster, that end with the same
stored policies and handle the same pods, end with the same firewalls. -/
theorem same_of_calm (h : m.Calm incidents) (h' : m'.Calm incidents') (halike : m.Alike m')
    (hleft : ∀ name d, m.fleet.backend.remnant name d = m'.fleet.backend.remnant name d)
    (hapart : m.Apart (podsOf incidents))
    (hpods : ∀ key, key ∈ podsOf incidents ↔ key ∈ podsOf incidents')
    (hpolicies : ∀ dialect key,
      (m.after incidents).policy? dialect key = (m'.after incidents').policy? dialect key)
    (group : PodGroup) :
    Option.Rel Site.Same ((m.after incidents).fleet.site? group)
      ((m'.after incidents').fleet.site? group) := by
  obtain ⟨dir, hdir⟩ := Record.exists_direction
  have hhomes (group : PodGroup) : m.HomeOf (podsOf incidents) group ↔
      m'.HomeOf (podsOf incidents') group := by
    simp only [HomeOf, hpods, halike.home?]
  have hapart' : m'.Apart (podsOf incidents') := fun group group' hgroup hgroup' =>
    hapart group group' ((hhomes group).2 hgroup) ((hhomes group').2 hgroup')
  have hsome : ((m.after incidents).fleet.site? group).isSome ↔
      ((m'.after incidents').fleet.site? group).isSome := by
    rw [Fleet.isSome_site?, Fleet.isSome_site?]
    exact (h.kept.groups group).trans ((hhomes group).trans (h'.kept.groups group).symm)
  have hend : (m.after incidents).Alike (m'.after incidents') :=
    h.kept.alike.symm.trans (halike.trans h'.kept.alike)
  rcases hsite : (m.after incidents).fleet.site? group with _ | s <;>
    rcases hsite' : (m'.after incidents').fleet.site? group with _ | s' <;>
    rw [hsite, hsite'] at hsome
  · exact .none
  · simp at hsome
  · simp at hsome
  · obtain ⟨hname, hstep⟩ := (h.inStep hapart hdir).sites group s hsite
    obtain ⟨hname', hstep'⟩ := (h'.inStep hapart' hdir).sites group s' hsite'
    -- the same records apply, and their keys leave one order for them
    refine .some (hstep.same hstep' (hname.trans hname'.symm) (hleft s.name) (fun d a => ?_)
      fun d a ha a' ha' hkey => ?_)
    · rw [h.mem_applied hsite, h'.mem_applied hsite', asked_congr hend.cluster
        (hpolicies ..).symm, resolver, resolver, hend.cluster, hend.range]
    · obtain ⟨hd, hasked, -⟩ := (h.mem_applied hsite).1 ha
      obtain ⟨hd', hasked', -⟩ := (h.mem_applied hsite).1 ha'
      rw [eq_of_orderKey h.kept.stocked hasked hasked' (hd.trans hd'.symm) hkey]

def knowing (pods : List (Kube.Object Pod)) (policies : List NetworkPolicy) : Manager where
  node := "node"
  ignored := []
  range := none
  cluster := ⟨.ofListing pods, .ofListing [Backlog.space], .ofListing []⟩
  k8sPolicies := .ofListing policies
  pcnPolicies := .ofListing []
  fleet := .empty Backend.empty

def allowing (labels : Labels) (networks : List String) : NetworkPolicy :=
  ⟨⟨some "web", some "n", ∅, none, none, false⟩,
    ⟨⟨labels, false⟩, [], networks.map fun cidr => ⟨[⟨some ⟨cidr, []⟩, none, none⟩], []⟩, []⟩⟩

theorem regular_allowing {labels : Labels} {networks : List String}
    (hnodup : (NetworkPolicy.records (allowing labels networks)).toOption.all
      (fun rs => rs.all fun r => decide r.templates.Nodup) = true) :
    m.Regular (.k8s (allowing labels networks)) := by
  refine ⟨by simp [Policy.PlainName, Policy.metadata, allowing], fun rs hrs r hr => ?_⟩
  have hrecords : (NetworkPolicy.records (allowing labels networks)).toOption = some rs :=
    Except.ok.inj hrs
  rw [hrecords, Option.all_some, List.all_eq_true] at hnodup
  exact of_decide_eq_true (hnodup r hr)

theorem calm_of_knowing {pods : List (Kube.Object Pod)} {policies : List NetworkPolicy}
    (hpolicies : ∀ p ∈ policies, (knowing pods policies).Regular (.k8s p))
    (hproper : ∀ i ∈ incidents, i.Proper (knowing pods policies))
    (hrun : (Course.succeeds ⟨knowing pods policies, []⟩ incidents &&
      (((knowing pods policies).after incidents).fleet.backend.failures Call.any == 0 &&
        (Course.run ⟨knowing pods policies, []⟩ incidents).unhandled.isEmpty)) = true) :
    (knowing pods policies).Calm incidents := by
  rw [Bool.and_eq_true, Bool.and_eq_true, beq_iff_eq, List.isEmpty_iff] at hrun
  exact ⟨rfl, .start _, ⟨Store.fedBy_ofListing policies hpolicies,
    Store.fedBy_ofListing [] (List.forall_mem_nil _)⟩, hproper, hrun.1, hrun.2.1, hrun.2.2⟩

/-- What a store holds, without the stamps. -/
def versions {α : Type} (s : Store α) : OrdMap ObjectKey (Kube.Object α) :=
  s.objects.map fun _ v => v.object

theorem policy?_congr (hk8s : versions m.k8sPolicies = versions m'.k8sPolicies)
    (hpcn : versions m.pcnPolicies = versions m'.pcnPolicies) (dialect : Dialect)
    (key : ObjectKey) : m.policy? dialect key = m'.policy? dialect key := by
  have hversion {α : Type} (s : Store α) (make : Kube.Object α → Policy) :
      (s.get? key).map (fun v => make v.object) = ((versions s).get? key).map make := by
    rw [versions, OrdMap.get?_map, Option.map_map]
    rfl
  unfold policy?
  rw [hversion, hversion, hversion, hversion, hk8s, hpcn]

/-- A firewall that is created after its policy, and one that was there before
and has seen an older version of it, end in the same state. -/
theorem same_of_calm_of_late_policy :
    let pods := [Backlog.podNamed "a" "10.0.0.1"]
    let old := allowing ∅ ["10.2.0.0/16", "10.1.0.0/16"]
    let new := allowing ∅ ["10.1.0.0/16"]
    let late := [Incident.join 0 ⟨"n", "a"⟩, .k8sEvent (.apply old), .deploy (.k8s old),
      .k8sEvent (.apply new), .deploy (.k8s new)]
    (knowing pods [new]).Calm [.join 0 ⟨"n", "a"⟩] ∧ (knowing pods []).Calm late ∧
      ∃ s s', ((knowing pods [new]).after [.join 0 ⟨"n", "a"⟩]).fleet.site? ⟨"n", ∅⟩ = some s ∧
        ((knowing pods []).after late).fleet.site? ⟨"n", ∅⟩ = some s' ∧
        s.chain .incoming ≠ [] ∧ Site.Same s s' := by
  intro pods old new late
  have hnew {m : Manager} : m.Regular (.k8s new) := regular_allowing (by decide +kernel)
  have hold {m : Manager} : m.Regular (.k8s old) := regular_allowing (by decide +kernel)
  have h : (knowing pods [new]).Calm [.join 0 ⟨"n", "a"⟩] :=
    calm_of_knowing (List.forall_mem_singleton.2 hnew) (List.forall_mem_singleton.2 trivial)
      (by decide +kernel)
  have h' : (knowing pods []).Calm late :=
    calm_of_knowing (List.forall_mem_nil _)
      (by simp [late, Incident.Proper, WatchEvent.Brings, hold, hnew]) (by decide +kernel)
  have hapart : (knowing pods [new]).Apart (podsOf [.join 0 ⟨"n", "a"⟩]) := by
    -- one pod has one group
    rintro group group' ⟨key, hkey, hgroup⟩ ⟨key', hkey', hgroup'⟩ -
    obtain rfl := List.mem_singleton.1 hkey
    obtain rfl := List.mem_singleton.1 hkey'
    exact Option.some.inj (hgroup.symm.trans hgroup')
  have hsame := same_of_calm h h' ⟨rfl, rfl, rfl, rfl⟩ (fun _ _ => rfl) hapart
    (by simp [podsOf, late, Incident.pod?])
    (policy?_congr (by decide +kernel) (by decide +kernel)) ⟨"n", ∅⟩
  have hchain : (((knowing pods [new]).after [.join 0 ⟨"n", "a"⟩]).fleet.site? ⟨"n", ∅⟩).any
      (fun s => s.chain .incoming != []) = true := by decide +kernel
  obtain ⟨s, hs, hchain⟩ := (Option.any_eq_true _ _).1 hchain
  rw [hs] at hsame
  rcases hs' : ((knowing pods []).after late).fleet.site? ⟨"n", ∅⟩ with _ | s' <;> rw [hs'] at hsame
  · cases hsame
  · cases hsame with
    | some hsame => exact ⟨h, h', s, s', hs, rfl, bne_iff_ne.1 hchain, hsame⟩

/-- Two groups have firewalls of one name, and the policy is for the pods of the
first one only. If its pod comes last, its rule is in the chain; if the pod of the
other group does, the chain is empty. -/
theorem not_same_of_one_name :
    ¬∀ (m m' : Manager) (incidents incidents' : List Incident), m.Calm incidents →
      m'.Calm incidents' → m.Alike m' →
      (∀ name d, m.fleet.backend.remnant name d = m'.fleet.backend.remnant name d) →
      (∀ key, key ∈ podsOf incidents ↔ key ∈ podsOf incidents') →
      (∀ dialect key,
        (m.after incidents).policy? dialect key = (m'.after incidents').policy? dialect key) →
      ∀ group, Option.Rel Site.Same ((m.after incidents).fleet.site? group)
        ((m'.after incidents').fleet.site? group) := by
  intro h
  let labels (value : String) : Labels := OrdMap.empty.insert "k" value
  let pod (name value ip : String) : Kube.Object Pod :=
    ⟨⟨some name, some "n", labels value, none, none, false⟩,
      ⟨name, "n", labels value, some ip, some "node", true, false, false⟩⟩
  let policy := allowing (labels "a1da950820f126b2") ["10.1.0.0/16"]
  let m := knowing [pod "a" "a1da950820f126b2" "10.0.0.1", pod "b" "9ec41b3705ed8fb6" "10.0.0.2"]
    [policy]
  let first := Incident.join 0 ⟨"n", "a"⟩
  let second := Incident.join 0 ⟨"n", "b"⟩
  have hpolicies : ∀ p ∈ [policy], m.Regular (.k8s p) :=
    List.forall_mem_singleton.2 (regular_allowing (by decide +kernel))
  have hcalm : m.Calm [first, second] :=
    calm_of_knowing hpolicies (by simp [first, second, Incident.Proper]) (by decide +kernel)
  have hcalm' : m.Calm [second, first] :=
    calm_of_knowing hpolicies (by simp [first, second, Incident.Proper]) (by decide +kernel)
  have hsame := h m m [first, second] [second, first] hcalm hcalm' (.refl m) (fun _ _ => rfl)
    (by simp [podsOf, first, second, Incident.pod?, or_comm])
    (policy?_congr (by decide +kernel) (by decide +kernel)) ⟨"n", labels "a1da950820f126b2"⟩
  obtain ⟨hchain, hchain'⟩ :
      ((m.after [first, second]).fleet.site? ⟨"n", labels "a1da950820f126b2"⟩).any
          (fun s => s.chain .incoming == []) = true ∧
        ((m.after [second, first]).fleet.site? ⟨"n", labels "a1da950820f126b2"⟩).any
          (fun s => s.chain .incoming != []) = true := by
    decide +kernel
  obtain ⟨s, hs, hchain⟩ := (Option.any_eq_true _ _).1 hchain
  obtain ⟨s', hs', hchain'⟩ := (Option.any_eq_true _ _).1 hchain'
  rw [hs, hs'] at hsame
  cases hsame with
  | some hsame =>
    have hids := (hsame.chain .incoming).2
    rw [beq_iff_eq.1 hchain, List.map_nil] at hids
    exact bne_iff_ne.1 hchain' (List.map_eq_nil_iff.1 hids.symm)

end Manager

end PodFirewall
