import Mathlib.Data.List.Basic
import Mathlib.Data.List.Induction
import PodFirewall.Firewall.Fleet

/-!
Which pods are in which group, and which groups are there. Pods join groups and
leave them at any time, and idle groups are swept away, while any call to the
service may fail. Still, a pod is only ever in the group that it joined last; a
group is idle since its last pod left; and a sweep takes only groups that have
been idle for long enough.
-/

namespace PodFirewall

structure Roster where
  now : Nat
  fleet : Fleet

inductive RosterStep where
  | elapse (span : Nat)
  | join (group : PodGroup) (pod : ObjectKey)
  | part (pod : ObjectKey)
  | sync (group : PodGroup)
  | sweep (timeout : Nat)
  /-- The service changes in any way. -/
  | disturb (backend : Backend)

def RosterStep.pod? : RosterStep → Option ObjectKey
  | join _ pod | part pod => some pod
  | _ => none

namespace Roster

def start (backend : Backend) : Roster := ⟨0, .empty backend⟩

def step (r : Roster) : RosterStep → Roster
  | .elapse span => { r with now := r.now + span }
  | .join group pod => { r with fleet := (r.fleet.addPod r.now group pod).2 }
  | .part pod => { r with fleet := r.fleet.removePod r.now pod }
  | .sync group => { r with fleet := r.fleet.markSynced group }
  | .sweep timeout => { r with fleet := (r.fleet.destroyIdle r.now timeout).2 }
  | .disturb backend => { r with fleet := { r.fleet with backend } }

def run (r : Roster) (steps : List RosterStep) : Roster := steps.foldl step r

def get? (r : Roster) (group : PodGroup) : Option GroupState := r.fleet.groups.get? group

def Has (r : Roster) (group : PodGroup) (pod : ObjectKey) : Prop :=
  ∃ g, r.get? group = some g ∧ g.pods.contains pod = true

def Vacant (r : Roster) (group : PodGroup) : Prop :=
  ∃ g, r.get? group = some g ∧ ∀ pod, g.pods.contains pod = false

/-- Whether a pod joins a group in a step, and this does not fail. -/
def Joins (r : Roster) (s : RosterStep) (group : PodGroup) (pod : ObjectKey) : Prop :=
  s = .join group pod ∧ (r.fleet.addPod r.now group pod).1.isOk = true

/-- Whether something has been the case since a step of some kind. -/
def Since (r : Roster) (steps : List RosterStep) (begins : Roster → RosterStep → Prop)
    (holds : Roster → Prop) : Prop :=
  ∃ before s after, steps = before ++ s :: after ∧ begins (r.run before) s ∧
    ∀ later, later <+: after → holds (r.run (before ++ s :: later))

theorem run_concat (r : Roster) (steps : List RosterStep) (s : RosterStep) :
    r.run (steps ++ [s]) = (r.run steps).step s := by
  rw [run, List.foldl_append]
  rfl

theorem Joins.pod?_eq {r : Roster} {s : RosterStep} {group : PodGroup} {pod : ObjectKey}
    (h : r.Joins s group pod) : s.pod? = some pod := by
  rw [h.1]
  rfl

namespace Since

variable {r : Roster} {steps : List RosterStep} {begins : Roster → RosterStep → Prop}
  {holds : Roster → Prop} {s : RosterStep}

theorem of_begins (hbegins : begins (r.run steps) s) (hholds : holds ((r.run steps).step s)) :
    r.Since (steps ++ [s]) begins holds := by
  refine ⟨steps, s, [], rfl, hbegins, fun later hlater => ?_⟩
  rw [List.prefix_nil.1 hlater, run_concat]
  exact hholds

theorem extend (h : r.Since steps begins holds) (hholds : holds ((r.run steps).step s)) :
    r.Since (steps ++ [s]) begins holds := by
  obtain ⟨before, first, after, rfl, hbegins, hlater⟩ := h
  refine ⟨before, first, after ++ [s], by simp, hbegins, fun later hprefix => ?_⟩
  rcases List.prefix_concat_iff.1 hprefix with rfl | hprefix
  · rw [← run_concat, List.append_assoc, List.cons_append] at hholds
    exact hholds
  · exact hlater later hprefix

end Since

end Roster

/-! ### What the operations do to one group -/

namespace OrdMap

variable {κ α : Type} [Ord κ] [Std.LawfulEqOrd κ]

theorem isEmpty_iff {m : OrdMap κ α} : m.isEmpty = true ↔ ∀ k, m.contains k = false := by
  simp only [isEmpty, contains, List.isEmpty_iff, Option.isSome_eq_false_iff, Option.isNone_iff_eq_none,
    get?_eq_none_iff]
  constructor
  · intro h k v
    simp [h]
  · intro h
    exact List.eq_nil_iff_forall_not_mem.2 fun e => h e.1 e.2

end OrdMap

theorem OrdSet.contains_ofMembers_singleton {κ : Type} [Ord κ] [Std.TransOrd κ] [Std.LawfulEqOrd κ]
    {k k' : κ} : (OrdSet.ofMembers [k]).contains k' = true ↔ k' = k :=
  OrdSet.contains_add_iff.trans (or_iff_left nofun)

namespace Fleet

variable {f : Fleet} {now : Nat} {group group' : PodGroup} {pod pod' : ObjectKey} {g : GroupState}

theorem contains_leave :
    (leave now pod g).pods.contains pod' = true ↔ pod' ≠ pod ∧ g.pods.contains pod' = true := by
  unfold leave
  split
  · exact OrdMap.contains_erase_iff
  · rename_i hnot
    refine (and_iff_right_of_imp ?_).symm
    rintro hmem rfl
    exact hnot hmem

theorem get?_release (now : Nat) (pod : ObjectKey) (keep : Option PodGroup)
    (groups : OrdMap PodGroup GroupState) (group : PodGroup) :
    (release now pod keep groups).get? group =
      (groups.get? group).map fun g => if keep == some group then g else leave now pod g :=
  OrdMap.get?_map groups _ group

theorem get?_removePod (f : Fleet) (now : Nat) (pod : ObjectKey) (group : PodGroup) :
    (f.removePod now pod).groups.get? group = (f.groups.get? group).map (leave now pod) :=
  get?_release now pod none f.groups group

/-- A pod that joins a group leaves all others, whether or not this succeeds. -/
theorem get?_addPod_of_ne (hne : group' ≠ group) :
    (f.addPod now group pod).2.groups.get? group' =
      (f.groups.get? group').map (leave now pod) := by
  have hreleased : (release now pod (some group) f.groups).get? group' =
      (f.groups.get? group').map (leave now pod) := by
    rw [get?_release]
    refine Option.map_congr fun g _ => ?_
    simp [hne.symm]
  unfold addPod
  dsimp only
  split
  · rw [OrdMap.get?_insert_of_ne _ _ hne, hreleased]
  · split
    · exact hreleased
    · rw [OrdMap.get?_insert_of_ne _ _ hne, hreleased]

/-- A pod is put into its group if there is one; else the group begins with the
pod, unless it fails to. -/
theorem get?_addPod_self (f : Fleet) (now : Nat) (group : PodGroup) (pod : ObjectKey) :
    (∃ g, f.groups.get? group = some g ∧ (f.addPod now group pod).1.isOk = true ∧
        (f.addPod now group pod).2.groups.get? group =
          some { g with pods := g.pods.add pod, idleSince := none }) ∨
      f.groups.get? group = none ∧
        ((∃ firewall, (f.addPod now group pod).1.isOk = true ∧
          (f.addPod now group pod).2.groups.get? group =
            some ⟨firewall, OrdSet.ofMembers [pod], none, false⟩) ∨
        (f.addPod now group pod).1.isOk = false ∧
          (f.addPod now group pod).2.groups.get? group = none) := by
  have hreleased : (release now pod (some group) f.groups).get? group = f.groups.get? group := by
    rw [get?_release]
    simp
  unfold addPod
  dsimp only
  rw [hreleased]
  rcases hgroup : f.groups.get? group with _ | g
  · refine .inr ⟨rfl, ?_⟩
    dsimp only
    split
    · exact .inr ⟨rfl, hreleased.trans hgroup⟩
    · exact .inl ⟨_, rfl, OrdMap.get?_insert_self ..⟩
  · exact .inl ⟨g, rfl, rfl, OrdMap.get?_insert_self ..⟩

theorem get?_markSynced (f : Fleet) (group group' : PodGroup) :
    (f.markSynced group').groups.get? group = f.groups.get? group ∨
      ∃ g, f.groups.get? group = some g ∧
        (f.markSynced group').groups.get? group = some { g with synced := true } := by
  unfold markSynced
  split
  · rename_i g hg
    by_cases hgroup : group = group'
    · subst hgroup
      exact .inr ⟨g, hg, OrdMap.get?_insert_self ..⟩
    · exact .inl (OrdMap.get?_insert_of_ne _ _ hgroup)
  · exact .inl rfl

theorem destroyEach_cons (e : PodGroup × GroupState) (rest : List (PodGroup × GroupState))
    (f : Fleet) : ∃ done backend,
      backend.log = ⟨e.2.firewall.name, .destroy, done⟩ :: f.backend.log ∧
        destroyEach (e :: rest) f =
          let after := destroyEach rest ⟨if done then f.groups.erase e.1 else f.groups, backend⟩
          (if done then e.2.firewall.name :: after.1 else after.1, after.2) := by
  simp only [destroyEach, Site.destroy, Backend.perform]
  rcases f.backend.outcome (f.backend.faults f.backend.log.length e.2.firewall.name .destroy)
    e.2.firewall.name .destroy with error | firewalls
  · exact ⟨false, { f.backend with log := ⟨e.2.firewall.name, .destroy, false⟩ :: f.backend.log },
      rfl, rfl⟩
  · exact ⟨true, ⟨firewalls, f.backend.faults,
      ⟨e.2.firewall.name, .destroy, true⟩ :: f.backend.log⟩, rfl, rfl⟩

/-- Of some groups, those whose firewalls the service deletes are destroyed. -/
theorem destroyEach_eq (groups : List (PodGroup × GroupState)) (f : Fleet) :
    ∃ tried : List ((PodGroup × GroupState) × Bool), tried.map (·.1) = groups ∧
      (destroyEach groups f).2.backend.log =
        (tried.map fun t => ⟨t.1.2.firewall.name, .destroy, t.2⟩).reverse ++ f.backend.log ∧
      (destroyEach groups f).1 = (tried.filter (·.2)).map (·.1.2.firewall.name) ∧
      ∀ group, (destroyEach groups f).2.groups.get? group =
        if group ∈ (tried.filter (·.2)).map (·.1.1) then none else f.groups.get? group := by
  induction groups generalizing f with
  | nil => exact ⟨[], rfl, rfl, rfl, fun group => by simp [destroyEach]⟩
  | cons e rest ih =>
    obtain ⟨done, backend, hlog, hcons⟩ := destroyEach_cons e rest f
    obtain ⟨tried, htried, hrest, hnames, hgroups⟩ :=
      ih ⟨if done then f.groups.erase e.1 else f.groups, backend⟩
    rw [hcons]
    refine ⟨(e, done) :: tried, by rw [List.map_cons, htried], ?_, ?_, fun group => ?_⟩
    · rw [hrest, hlog]
      simp
    · cases done
      · exact hnames
      · exact congrArg (e.2.firewall.name :: ·) hnames
    · rw [hgroups]
      cases done
      · rfl
      · rw [List.filter_cons_of_pos rfl, List.map_cons]
        by_cases hgroup : group = e.1
        · simp [hgroup]
        · exact ite_congr (by simp [hgroup]) (fun _ => rfl) fun _ => OrdMap.get?_erase_of_ne _ hgroup

/-- The groups that are destroyed are among those that were tried. -/
theorem expired_of_destroyed {timeout : Nat} {tried : List ((PodGroup × GroupState) × Bool)}
    (htried : tried.map (·.1) = f.groups.toList.filter fun e => expired now timeout e.2)
    (h : group ∈ (tried.filter (·.2)).map (·.1.1)) :
    ∃ g, f.groups.get? group = some g ∧ expired now timeout g = true := by
  obtain ⟨⟨⟨_, g⟩, done⟩, ht, rfl⟩ := List.mem_map.1 h
  have hexpired := List.mem_map_of_mem (f := (·.1)) (List.mem_filter.1 ht).1
  rw [htried, List.mem_filter] at hexpired
  exact ⟨g, OrdMap.get?_eq_some_iff.2 hexpired.1, hexpired.2⟩

end Fleet

/-- Whether a group is idle exactly if it has no pods, and not since a time to
come. -/
structure GroupState.Timely (now : Nat) (g : GroupState) : Prop where
  idle_iff : g.idleSince = none ↔ ∃ pod, g.pods.contains pod = true
  le_now : ∀ since, g.idleSince = some since → since ≤ now

namespace GroupState.Timely

variable {g : GroupState} {now now' : Nat}

theorem mono (h : g.Timely now) (hle : now ≤ now') : g.Timely now' :=
  ⟨h.idle_iff, fun since hsince => Nat.le_trans (h.le_now since hsince) hle⟩

theorem leave (h : g.Timely now) (pod : ObjectKey) : (Fleet.leave now pod g).Timely now := by
  unfold Fleet.leave
  split
  · rename_i hmem
    have hbusy : g.idleSince = none := h.idle_iff.2 ⟨pod, hmem⟩
    dsimp only
    split
    · rename_i hempty
      refine ⟨iff_of_false nofun ?_, fun since hsince => Nat.le_of_eq (Option.some.inj hsince).symm⟩
      rintro ⟨pod', hpod'⟩
      rw [OrdMap.isEmpty_iff.1 hempty] at hpod'
      cases hpod'
    · rename_i hsome
      refine ⟨iff_of_true hbusy ?_, h.le_now⟩
      simpa [OrdMap.isEmpty_iff] using hsome
  · exact h

theorem not_contains (h : g.Timely now) {since : Nat} (hsince : g.idleSince = some since)
    (pod : ObjectKey) : g.pods.contains pod = false := by
  refine Bool.eq_false_iff.2 fun hmem => ?_
  have hnone := h.idle_iff.2 ⟨pod, hmem⟩
  rw [hsince] at hnone
  cases hnone

/-- The groups to be destroyed are those without pods that have been idle for
long enough. -/
theorem expired_eq (h : g.Timely now) (timeout : Nat) :
    Fleet.expired now timeout g =
      (g.pods.isEmpty && g.idleSince.any fun since => since + timeout ≤ now) := by
  unfold Fleet.expired
  rcases hidle : g.idleSince with _ | since
  · simp
  · have hle := h.le_now since hidle
    have hempty : g.pods.isEmpty = true := OrdMap.isEmpty_iff.2 (h.not_contains hidle)
    rw [hempty, Bool.true_and, Option.any_some, decide_eq_decide]
    omega

end GroupState.Timely

namespace Roster

variable {r : Roster} {s : RosterStep} {group group' : PodGroup} {pod : ObjectKey}

/-- What a step makes of what is kept for a group. -/
inductive Turn (r : Roster) (group : PodGroup) (s : RosterStep) :
    Option GroupState → Option GroupState → Prop where
  | absent : (∀ pod, ¬r.Joins s group pod) → Turn r group s none none
  | created {pod : ObjectKey} {firewall : Deployed} : r.Joins s group pod →
      Turn r group s none (some ⟨firewall, OrdSet.ofMembers [pod], none, false⟩)
  | joined {pod : ObjectKey} {g : GroupState} : r.Joins s group pod →
      Turn r group s (some g) (some { g with pods := g.pods.add pod, idleSince := none })
  /-- A pod is gone, or is to join another group. -/
  | left {pod : ObjectKey} {g : GroupState} : s.pod? = some pod → s ≠ .join group pod →
      Turn r group s (some g) (some (Fleet.leave r.now pod g))
  | kept {g : GroupState} (synced : Bool) : s.pod? = none →
      Turn r group s (some g) (some { g with synced })
  | destroyed {g : GroupState} {timeout : Nat} : s = .sweep timeout →
      Fleet.expired r.now timeout g = true → Turn r group s (some g) none

/-- A step that is not about a pod and keeps the groups is no turn for any. -/
theorem Turn.of_eq (hpod : s.pod? = none) (o : Option GroupState) : Turn r group s o o := by
  rcases o with _ | g
  · refine .absent fun pod hjoins => ?_
    rw [hjoins.pod?_eq] at hpod
    cases hpod
  · exact .kept g.synced hpod

theorem turn_join (r : Roster) (group group' : PodGroup) (pod : ObjectKey) :
    Turn r group (.join group' pod) (r.get? group) ((r.step (.join group' pod)).get? group) := by
  by_cases hgroup : group = group'
  · subst hgroup
    simp only [get?, step]
    rcases Fleet.get?_addPod_self r.fleet r.now group pod with
      ⟨g, hg, hok, hafter⟩ | ⟨hnone, ⟨firewall, hok, hafter⟩ | ⟨hfailed, hafter⟩⟩
    · rw [hg, hafter]
      exact .joined ⟨rfl, hok⟩
    · rw [hnone, hafter]
      exact .created ⟨rfl, hok⟩
    · rw [hnone, hafter]
      refine .absent ?_
      rintro pod' ⟨heq, hok⟩
      rw [← (RosterStep.join.inj heq).2, hfailed] at hok
      cases hok
  · have hother (pod' : ObjectKey) : RosterStep.join group' pod ≠ .join group pod' :=
      fun heq => hgroup (RosterStep.join.inj heq).1.symm
    simp only [get?, step, Fleet.get?_addPod_of_ne hgroup]
    rcases r.fleet.groups.get? group with _ | g
    · exact .absent fun pod' hjoins => hother pod' hjoins.1
    · exact .left rfl (hother pod)

theorem turn_sweep (r : Roster) (group : PodGroup) (timeout : Nat) :
    Turn r group (.sweep timeout) (r.get? group) ((r.step (.sweep timeout)).get? group) := by
  obtain ⟨tried, htried, -, -, hgroups⟩ := Fleet.destroyEach_eq
    (r.fleet.groups.toList.filter fun e => Fleet.expired r.now timeout e.2) r.fleet
  simp only [get?, step, Fleet.destroyIdle, hgroups]
  split
  · rename_i hmem
    obtain ⟨g, hg, hexpired⟩ := Fleet.expired_of_destroyed htried hmem
    rw [hg]
    exact .destroyed rfl hexpired
  · exact .of_eq rfl _

/-- Every step is a turn for every group. -/
theorem turn (r : Roster) (group : PodGroup) (s : RosterStep) :
    Turn r group s (r.get? group) ((r.step s).get? group) := by
  cases s with
  | elapse span => exact .of_eq rfl _
  | join group' pod => exact turn_join r group group' pod
  | part pod =>
    simp only [get?, step, Fleet.get?_removePod]
    rcases r.fleet.groups.get? group with _ | g
    · exact .absent fun pod' hjoins => nomatch hjoins.1
    · exact .left rfl nofun
  | sync group' =>
    rcases Fleet.get?_markSynced r.fleet group group' with hsame | ⟨g, hg, hafter⟩
    · simp only [get?, step, hsame]
      exact .of_eq rfl _
    · simp only [get?, step, hg, hafter]
      exact .kept true rfl
  | sweep timeout => exact turn_sweep r group timeout
  | disturb backend => exact .of_eq rfl _

/-! ### What the steps keep -/

def Timely (r : Roster) : Prop := ∀ group g, r.get? group = some g → g.Timely r.now

theorem now_le_step (r : Roster) (s : RosterStep) : r.now ≤ (r.step s).now := by
  cases s with
  | elapse span => exact Nat.le_add_right _ _
  | _ => exact Nat.le_refl _

theorem Timely.step (h : r.Timely) (s : RosterStep) : (r.step s).Timely := by
  intro group g' hg'
  refine GroupState.Timely.mono ?_ (now_le_step r s)
  have hturn := r.turn group s
  rw [hg'] at hturn
  generalize hget : r.get? group = o at hturn
  cases hturn with
  | created => exact ⟨iff_of_true rfl ⟨_, OrdSet.contains_add_iff.2 (.inl rfl)⟩, nofun⟩
  | joined => exact ⟨iff_of_true rfl ⟨_, OrdSet.contains_add_iff.2 (.inl rfl)⟩, nofun⟩
  | left => exact (h group _ hget).leave _
  | kept => exact ⟨(h group _ hget).idle_iff, (h group _ hget).le_now⟩

theorem Timely.run (h : r.Timely) (steps : List RosterStep) : (r.run steps).Timely := by
  induction steps generalizing r with
  | nil => exact h
  | cons s rest ih => exact ih (h.step s)

theorem timely_start (backend : Backend) : (start backend).Timely := nofun

/-- A group that is about to be destroyed has no pods. -/
theorem Timely.not_contains_of_expired (h : r.Timely) {g : GroupState} {timeout : Nat}
    (hg : r.get? group = some g) (hexpired : Fleet.expired r.now timeout g = true)
    (pod : ObjectKey) : g.pods.contains pod = false := by
  rw [(h group g hg).expired_eq, Bool.and_eq_true] at hexpired
  exact OrdMap.isEmpty_iff.1 hexpired.1 pod

/-- A pod is in the group that it joins, until a step is about it. -/
theorem Timely.has_step_iff (h : r.Timely) :
    (r.step s).Has group pod ↔ r.Joins s group pod ∨ s.pod? ≠ some pod ∧ r.Has group pod := by
  have hjoins {pod' : ObjectKey} (hpod' : r.Joins s group pod') :
      r.Joins s group pod ↔ pod = pod' :=
    ⟨fun hpod => Option.some.inj (hpod.pod?_eq.symm.trans hpod'.pod?_eq), fun heq => heq ▸ hpod'⟩
  have hturn := r.turn group s
  unfold Has
  generalize hbefore : r.get? group = o at hturn
  generalize (r.step s).get? group = o' at hturn
  cases hturn with
  | absent hnone => simp [hnone]
  | created hpod' => simp [hjoins hpod', OrdSet.contains_ofMembers_singleton]
  | @joined pod' g hpod' =>
    by_cases hpod : pod = pod'
    · subst hpod
      simp [hpod', OrdSet.contains_add_iff]
    · simp [hjoins hpod', hpod'.pod?_eq, hpod, Ne.symm hpod, OrdSet.contains_add_iff]
  | @left pod' g hpod' hne =>
    have hnot : ¬r.Joins s group pod := fun hpod => hne (by
      rw [hpod.1, Option.some.inj (hpod.pod?_eq.symm.trans hpod')])
    by_cases hpod : pod = pod'
    · subst hpod
      simp [hnot, hpod', Fleet.contains_leave]
    · simp [hnot, hpod', hpod, Ne.symm hpod, Fleet.contains_leave]
  | kept synced hnone =>
    have hnot : ¬r.Joins s group pod := fun hpod => by
      rw [hpod.pod?_eq] at hnone
      cases hnone
    simp [hnot, hnone]
  | destroyed hs hexpired =>
    have hnot : ¬r.Joins s group pod := fun hpod => by
      rw [hpod.1] at hs
      cases hs
    simp [hnot, h.not_contains_of_expired hbefore hexpired pod]

/-- A group that is idle was so before, or has just lost its last pod. -/
theorem idle_step {g' : GroupState} {since : Nat}
    (hg' : (r.step s).get? group = some g') (hsince : g'.idleSince = some since) :
    (∃ g, r.get? group = some g ∧ g.idleSince = some since) ∨
      r.now = since ∧ ∃ pod, r.Has group pod := by
  have hturn := r.turn group s
  rw [hg'] at hturn
  generalize hget : r.get? group = o at hturn
  cases hturn with
  | created => cases hsince
  | joined => cases hsince
  | @left pod g =>
    unfold Fleet.leave at hsince
    split at hsince
    · rename_i hmem
      dsimp only at hsince
      split at hsince
      · exact .inr ⟨Option.some.inj hsince, pod, g, hget, hmem⟩
      · exact .inl ⟨g, rfl, hsince⟩
    · exact .inl ⟨g, rfl, hsince⟩
  | @kept g => exact .inl ⟨g, rfl, hsince⟩

/-- A group was there before, or has just begun with a pod. -/
theorem isSome_step {g' : GroupState} (hg' : (r.step s).get? group = some g') :
    (r.get? group).isSome ∨ r.get? group = none ∧
      ∃ pod, r.Joins s group pod ∧ ∀ pod', (r.step s).Has group pod' ↔ pod' = pod := by
  have hturn := r.turn group s
  rw [hg'] at hturn
  generalize r.get? group = o at hturn
  cases hturn with
  | @created pod firewall hjoins =>
    refine .inr ⟨rfl, pod, hjoins, fun pod' => ?_⟩
    simp [Has, hg', OrdSet.contains_ofMembers_singleton]
  | joined => exact .inl rfl
  | left => exact .inl rfl
  | kept => exact .inl rfl

/-! ### What is so after any steps -/

section Run

variable (backend : Backend) (steps : List RosterStep)

theorem has_run_iff :
    ((start backend).run steps).Has group pod ↔ ∃ before s after, steps = before ++ s :: after ∧
      ((start backend).run before).Joins s group pod ∧ ∀ later ∈ after, later.pod? ≠ some pod := by
  induction steps using List.reverseRecOn with
  | nil =>
    refine iff_of_false (fun ⟨_, hg, _⟩ => nomatch hg) ?_
    rintro ⟨before, s, after, hnil, -⟩
    simp at hnil
  | append_singleton steps s ih =>
    rw [run_concat, ((timely_start backend).run steps).has_step_iff, ih]
    constructor
    · rintro (hjoins | ⟨hs, before, first, after, rfl, hjoins, hafter⟩)
      · exact ⟨steps, s, [], rfl, hjoins, fun _ h => nomatch h⟩
      · refine ⟨before, first, after ++ [s], by simp, hjoins, fun later hlater => ?_⟩
        rcases List.mem_append.1 hlater with hlater | hlater
        · exact hafter later hlater
        · rw [List.mem_singleton.1 hlater]
          exact hs
    · rintro ⟨before, first, after, hsteps, hjoins, hafter⟩
      rcases List.eq_nil_or_concat' after with rfl | ⟨after, last, rfl⟩
      · obtain ⟨rfl, hlast⟩ := List.append_inj' hsteps rfl
        obtain rfl := List.singleton_inj.1 hlast
        exact .inl hjoins
      · rw [← List.cons_append, ← List.append_assoc] at hsteps
        obtain ⟨rfl, hlast⟩ := List.append_inj' hsteps rfl
        obtain rfl := List.singleton_inj.1 hlast
        exact .inr ⟨hafter s (by simp), before, first, after, rfl, hjoins,
          fun later hlater => hafter later (by simp [hlater])⟩

/-- No pod is in two groups. -/
theorem has_unique (h : ((start backend).run steps).Has group pod)
    (h' : ((start backend).run steps).Has group' pod) : group = group' := by
  induction steps using List.reverseRecOn with
  | nil => obtain ⟨_, hg, _⟩ := h; cases hg
  | append_singleton steps s ih =>
    have htimely := (timely_start backend).run steps
    rw [run_concat] at h h'
    rcases htimely.has_step_iff.1 h with hjoins | ⟨hs, hbefore⟩ <;>
      rcases htimely.has_step_iff.1 h' with hjoins' | ⟨hs', hbefore'⟩
    · exact (RosterStep.join.inj (hjoins.1.symm.trans hjoins'.1)).1
    · exact absurd hjoins.pod?_eq hs'
    · exact absurd hjoins'.pod?_eq hs
    · exact ih hbefore hbefore'

/-- A group that is idle has no pods since the time that it is said to be. -/
theorem since_left {g : GroupState} {since : Nat}
    (hg : ((start backend).run steps).get? group = some g) (hsince : g.idleSince = some since) :
    (start backend).Since steps (fun r _ => r.now = since ∧ ∃ pod, r.Has group pod)
      (·.Vacant group) := by
  induction steps using List.reverseRecOn generalizing g with
  | nil => cases hg
  | append_singleton steps s ih =>
    have htimely := (timely_start backend).run steps
    rw [run_concat] at hg
    have hvacant : ((run (start backend) steps).step s).Vacant group :=
      ⟨g, hg, ((htimely.step s) group g hg).not_contains hsince⟩
    rcases idle_step hg hsince with ⟨g, hbefore, hidle⟩ | hleft
    · exact (ih hbefore hidle).extend hvacant
    · exact .of_begins hleft hvacant

/-- A group is there since it began with a pod. -/
theorem since_created (h : (((start backend).run steps).get? group).isSome) :
    (start backend).Since steps
      (fun r s => r.get? group = none ∧
        ∃ pod, r.Joins s group pod ∧ ∀ pod', (r.step s).Has group pod' ↔ pod' = pod)
      fun r => (r.get? group).isSome := by
  induction steps using List.reverseRecOn with
  | nil => cases h
  | append_singleton steps s ih =>
    rw [run_concat] at h
    obtain ⟨g, hg⟩ := Option.isSome_iff_exists.1 h
    rcases isSome_step hg with hbefore | hcreated
    · exact (ih hbefore).extend h
    · exact .of_begins hcreated h

end Run

/-- After any steps, a pod is in a group exactly if the last step that is about
the pod puts it there, and in no other. A group is idle exactly if it has no
pods, namely since its last pod left, and it began with a pod. A sweep tries the
groups without pods that have been idle for long enough, destroys those whose
firewalls the service deletes, names these in order, and leaves all others. -/
theorem membership_and_sweep (backend : Backend) (steps : List RosterStep) :
    let r := (start backend).run steps
    (∀ group pod, r.Has group pod ↔ ∃ before s after, steps = before ++ s :: after ∧
        ((start backend).run before).Joins s group pod ∧ ∀ later ∈ after, later.pod? ≠ some pod) ∧
      (∀ pod group group', r.Has group pod → r.Has group' pod → group = group') ∧
      (∀ group g, r.get? group = some g →
        (g.idleSince = none ↔ ∃ pod, g.pods.contains pod = true) ∧
        (∀ since, g.idleSince = some since →
          (start backend).Since steps (fun r _ => r.now = since ∧ ∃ pod, r.Has group pod)
            (·.Vacant group)) ∧
        (start backend).Since steps
          (fun r s => r.get? group = none ∧
            ∃ pod, r.Joins s group pod ∧ ∀ pod', (r.step s).Has group pod' ↔ pod' = pod)
          fun r => (r.get? group).isSome) ∧
      ∀ timeout, ∃ tried : List ((PodGroup × GroupState) × Bool),
        let swept := r.fleet.destroyIdle r.now timeout
        let destroyed := tried.filter (·.2)
        tried.map (·.1) = (r.fleet.groups.toList.filter fun e =>
          e.2.pods.isEmpty && e.2.idleSince.any fun since => since + timeout ≤ r.now) ∧
        swept.2.backend.log =
          (tried.map fun t => ⟨t.1.2.firewall.name, .destroy, t.2⟩).reverse ++
            r.fleet.backend.log ∧
        swept.1 = destroyed.map (·.1.2.firewall.name) ∧
        (∀ group, swept.2.groups.get? group =
          if group ∈ destroyed.map (·.1.1) then none else r.get? group) ∧
        ∀ group pod, r.Has group pod → swept.2.groups.get? group = r.get? group := by
  intro r
  have htimely : r.Timely := (timely_start backend).run steps
  refine ⟨fun group pod => has_run_iff backend steps, fun pod group group' => has_unique backend steps,
    fun group g hg => ⟨(htimely group g hg).idle_iff, fun since => since_left backend steps hg,
      since_created backend steps (Option.isSome_iff_exists.2 ⟨g, hg⟩)⟩, fun timeout => ?_⟩
  obtain ⟨tried, htried, hlog, hnames, hgroups⟩ := Fleet.destroyEach_eq
    (r.fleet.groups.toList.filter fun e => Fleet.expired r.now timeout e.2) r.fleet
  refine ⟨tried, ?_, hlog, hnames, hgroups, fun group pod hhas => (hgroups group).trans ?_⟩
  · rw [htried]
    refine List.filter_congr fun e he => ?_
    exact (htimely e.1 e.2 (OrdMap.get?_eq_some_iff.2 he)).expired_eq timeout
  · -- a group with a pod is not tried
    refine if_neg fun hmem => ?_
    obtain ⟨g, hg, hexpired⟩ := Fleet.expired_of_destroyed htried hmem
    obtain ⟨g', hg', hpod⟩ := hhas
    obtain rfl : g = g' := Option.some.inj (hg.symm.trans hg')
    rw [htimely.not_contains_of_expired hg hexpired pod] at hpod
    cases hpod

/-- A pod moves from one group to another. The one that it left has been idle
since then, and is swept away after that time. -/
theorem membership_and_sweep_of_moved :
    let web : PodGroup := ⟨"web", ∅⟩
    let shop : PodGroup := ⟨"shop", ∅⟩
    let pod : ObjectKey := ⟨"shop", "p"⟩
    let steps : List RosterStep := [.join web pod, .elapse 5, .join shop pod, .elapse 60]
    let r := (start .empty).run steps
    r.Has shop pod ∧ ¬r.Has web pod ∧ (r.fleet.destroyIdle r.now 60).1 = [web.firewallName] := by
  intro web shop pod steps r
  obtain ⟨hhas, hunique, -⟩ := membership_and_sweep .empty steps
  have hjoins : ((start .empty).run [.join web pod, .elapse 5]).Joins (.join shop pod) shop pod :=
    ⟨rfl, by decide +kernel⟩
  have hshop : r.Has shop pod := (hhas shop pod).2 ⟨[.join web pod, .elapse 5], .join shop pod,
    [.elapse 60], rfl, hjoins, by simp [RosterStep.pod?]⟩
  have hother : web ≠ shop := by decide
  have hweb : ¬r.Has web pod := fun hweb => hother (hunique pod web shop hweb hshop)
  exact ⟨hshop, hweb, by decide +kernel⟩

end Roster

end PodFirewall
