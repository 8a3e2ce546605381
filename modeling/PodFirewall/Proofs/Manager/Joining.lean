import PodFirewall.Proofs.Manager.Agreement
import PodFirewall.Proofs.Manager.Isolation

/-!
Pods that come to their groups. Handling a pod with success gives its group a
firewall if it has none, and leaves the agreement with a policy alone: a new
firewall gets what the stored policies ask for, and what the pod changes for
others is resolved anew.
-/

namespace PodFirewall

namespace Fleet

variable {f f' : Fleet} {group group' : PodGroup} {allowed : PodGroup → Operation → Prop}
  {expected expected' : PodGroup → Prop}

theorem ledger?_eq_map (f : Fleet) (group : PodGroup) :
    f.ledger? group = (f.site? group).map (·.ledger) := by
  rw [ledger?, site?, Option.map_map]
  rfl

theorem isSome_ledger?_addPod {now : Nat} {pod : ObjectKey} {membership : Membership}
    (hok : (f.addPod now group pod).1 = .ok membership) :
    ((f.addPod now group pod).2.ledger? group').isSome ↔
      (f.ledger? group').isSome ∨ group = group' := by
  rw [← isSome_site?, ← isSome_site?]
  rcases addPod_cases hok with ⟨hsome, -, hsites⟩ | ⟨-, firewall, -, hsite, hothers⟩
  · rw [hsites]
    refine ⟨.inl, fun h => h.elim id fun heq => heq ▸ hsome⟩
  · by_cases hgroup : group' = group
    · simp [hgroup, hsite]
    · rw [hothers group' hgroup, Option.isSome_map]
      exact ⟨.inl, fun h => h.resolve_right (Ne.symm hgroup)⟩

theorem Fitting.addPod (h : f.Fitting) (now : Nat) (group : PodGroup) (pod : ObjectKey) :
    (f.addPod now group pod).2.Fitting := by
  refine Suits.of_ledgers h fun group' l' hl' => ?_
  rcases ledger?_addPod f now group pod group' with hsame | ⟨-, -, l, hl, hrules, happlied⟩
  · exact .inl (hsame ▸ hl')
  · rw [hl', Option.some.injEq] at hl
    exact .inr (hl ▸ ⟨hrules, happlied⟩)

namespace Grows

theorem mono (h : Grows allowed expected f f') (himp : ∀ group, expected group → expected' group) :
    Grows allowed expected' f f' := by
  induction h with
  | refl => exact .refl
  | steps _ hsteps ih => exact ih.steps hsteps
  | same _ hsites hbackend ih => exact ih.same hsites hbackend
  | join _ hexpected hok ih => exact ih.join (himp _ hexpected) hok

theorem fitting (h : Grows (fun group o => o.Fits group) expected f f') (hf : f.Fitting) :
    f'.Fitting := by
  induction h with
  | refl => exact hf
  | steps _ hsteps ih => exact Fitting.steps ih hsteps
  | same _ hsites _ ih =>
    refine Suits.of_ledgers ih fun group l' hl' => .inl ?_
    rwa [ledger?_eq_map, ← hsites, ← ledger?_eq_map]
  | join _ _ _ ih => exact Fitting.addPod ih _ _ _

end Grows

end Fleet

namespace Manager

open Fleet (Grows Steps)

variable {m m' : Manager} {p : Policy} {group home : PodGroup} {dialect : Dialect}
  {parent firewall : String} {now : Nat} {key : ObjectKey} {new : Option Pod}
  {change : Change (Stored Pod)} {expected : PodGroup → Prop}

/-! ### Managers with the same cluster -/

theorem Regular.congr (h : m.Regular p) (hcluster : m'.cluster = m.cluster) : m'.Regular p := by
  refine ⟨h.plainName, fun rs hrs => h.nodup rs ?_⟩
  rw [← hrs, records, records, hcluster]

theorem Stocked.withFleet (h : m.Stocked) (f : Fleet) : (m.withFleet f).Stocked :=
  ⟨h.k8s.mono fun _ ho => ho.congr rfl, h.pcn.mono fun _ ho => ho.congr rfl⟩

theorem asked_congr (hcluster : m'.cluster = m.cluster)
    (hpolicy : m'.policy? dialect ⟨group.namespaceName, parent⟩ =
      m.policy? dialect ⟨group.namespaceName, parent⟩) :
    m'.asked dialect parent group = m.asked dialect parent group := by
  have hrecords (p : Policy) : m'.records p = m.records p := by
    rw [records, records, hcluster]
  rw [asked, asked, hpolicy]
  simp only [wanted, hrecords]

/-- Agreement with a policy depends on its stored version, on the cluster and on
the ledger. -/
theorem Agrees.congr (h : m.Agrees dialect parent group)
    (hledger : m'.fleet.ledger? group = m.fleet.ledger? group)
    (hpolicy : m'.policy? dialect ⟨group.namespaceName, parent⟩ =
      m.policy? dialect ⟨group.namespaceName, parent⟩)
    (hcluster : m'.cluster = m.cluster) (hrange : m'.range = m.range) :
    m'.Agrees dialect parent group := by
  intro l hl d a hpart
  rw [asked_congr hcluster hpolicy, resolver, hcluster, hrange]
  exact h l (hledger ▸ hl) d a hpart

/-! ### Groups of pods -/

/-- Handling a change of a pod with success regroups the pod and then resolves
some records anew. -/
theorem onPod_cases (hok : (m.onPod now key change).1 = .ok ()) :
    (m.regroup now key (change.new.map (·.object.body))).1 = .ok () ∧
      ((m.onPod now key change).2 = (m.regroup now key (change.new.map (·.object.body))).2 ∨
        ∃ affected, (m.regroup now key (change.new.map (·.object.body))).2.refresh affected =
          (.ok (), (m.onPod now key change).2)) := by
  unfold onPod at hok ⊢
  dsimp only at hok ⊢
  split at hok
  · cases hok
  · rename_i m' hregroup
    rw [hregroup]
    refine ⟨rfl, ?_⟩
    dsimp only
    split at hok <;> rename_i hview
    · rw [if_pos hview]
      exact .inl rfl
    · rw [if_neg hview]
      split at hok
      · cases hok
      · rename_i homes hhomes
        exact .inr ⟨_, Prod.ext hok rfl⟩

theorem fits_syncGroup (hstocked : m.Stocked) (hok : (m.syncGroup home firewall).1 = .ok ()) :
    Steps (fun group o => o.Fits group) m.fleet (m.syncGroup home firewall).2.fleet := by
  obtain ⟨-, hsynced⟩ := syncGroup_ok hok
  rw [hsynced]
  exact fits_applyEach hstocked.fits_wantedOn 0 m.fleet

/-- The groups after a pod was regrouped are those before and the group of the
pod. -/
theorem grows_regroup (hstocked : m.Stocked) (hok : (m.regroup now key new).1 = .ok ())
    (hhome : ∀ group, m.homeOf new = some group → expected group) :
    Grows (fun group o => o.Fits group) expected m.fleet (m.regroup now key new).2.fleet ∧
      ∀ group, ((m.regroup now key new).2.fleet.ledger? group).isSome ↔
        (m.fleet.ledger? group).isSome ∨ m.homeOf new = some group := by
  rcases regroup_cases hok with
    ⟨hnone, hrest⟩ | ⟨home, membership, hsome, hadd, ⟨-, hrest⟩ | ⟨-, m', hsync, hrest⟩⟩ <;>
    rw [hrest]
  · have hsites (group : PodGroup) :
        (m.fleet.removePod now key).site? group = m.fleet.site? group :=
      (Fleet.site?_release now key none m.fleet m.fleet.backend group).trans
        (Fleet.site?_same_backend m.fleet group)
    refine ⟨.same .refl hsites rfl, fun group => ?_⟩
    rw [Fleet.ledger?_eq_map, hsites, ← Fleet.ledger?_eq_map, hnone]
    simp
  · refine ⟨.join .refl (hhome home hsome) hadd, fun group => ?_⟩
    rw [hsome, Option.some.injEq]
    exact Fleet.isSome_ledger?_addPod hadd
  · have hjoined := (Grows.refl.join (hhome home hsome) hadd :
      Grows (fun group o => o.Fits group) expected m.fleet _)
    have hsteps := fits_syncGroup (hstocked.withFleet _) (congrArg Prod.fst hsync)
    rw [hsync] at hsteps
    have hsites := Fleet.site?_markSynced m'.fleet home
    refine ⟨(hjoined.steps hsteps).same hsites ?_, fun group => ?_⟩
    · unfold Fleet.markSynced
      split <;> rfl
    · rw [hsome, Option.some.injEq, Fleet.ledger?_markSynced, hsteps.isSome_ledger?]
      exact Fleet.isSome_ledger?_addPod hadd

/-- The groups after a pod was handled are those before and the group of the
pod. -/
theorem grows_onPod (hm : m.fleet.Fitting) (hstocked : m.Stocked)
    (hok : (m.onPod now key change).1 = .ok ())
    (hhome : ∀ group, m.homeOf (change.new.map (·.object.body)) = some group → expected group) :
    Grows (fun group o => o.Fits group) expected m.fleet (m.onPod now key change).2.fleet ∧
      ∀ group, ((m.onPod now key change).2.fleet.ledger? group).isSome ↔
        (m.fleet.ledger? group).isSome ∨
          m.homeOf (change.new.map (·.object.body)) = some group := by
  obtain ⟨hregroup, hrest⟩ := onPod_cases hok
  obtain ⟨hgrown, hgroups⟩ := grows_regroup hstocked hregroup hhome
  rcases hrest with hrest | ⟨affected, hrefresh⟩
  · rw [hrest]
    exact ⟨hgrown, hgroups⟩
  · have hsteps := fits_refresh (hgrown.fitting hm) affected
    rw [hrefresh] at hsteps
    exact ⟨hgrown.steps hsteps, fun group => by rw [hsteps.isSome_ledger?, hgroups]⟩

/-! ### Agreement -/

/-- Regrouping a pod leaves the agreement with a policy alone. -/
theorem Agrees.regroup (h : m.Agrees dialect parent group) (hm : m.fleet.Fitting)
    (hstocked : m.Stocked) (hok : (m.regroup now key new).1 = .ok ()) :
    (m.regroup now key new).2.Agrees dialect parent group := by
  have hsame {f : Fleet} (hledger : f.ledger? group = m.fleet.ledger? group) :
      (m.withFleet f).Agrees dialect parent group := h.congr hledger rfl rfl rfl
  rcases regroup_cases hok with
    ⟨-, hrest⟩ | ⟨home, membership, -, hadd, ⟨hneeds, hrest⟩ | ⟨-, m', hsync, hrest⟩⟩ <;> rw [hrest]
  · exact hsame (Fleet.ledger?_release now key none m.fleet m.fleet.backend group)
  · rcases Fleet.ledger?_addPod m.fleet now home key group with hledger | ⟨hnone, rfl, -⟩
    · exact hsame hledger
    · -- a new group is not without need
      rw [needsSync_addPod hadd, Option.map_eq_none_iff.1 hnone] at hneeds
      cases hneeds
  · have hjoined : (m.withFleet (m.fleet.addPod now home key).2).fleet.Fitting :=
      Fleet.Fitting.addPod hm now home key
    have hstocked' := hstocked.withFleet (m.fleet.addPod now home key).2
    have hsynced := congrArg Prod.fst hsync
    have hdone : ((m.withFleet (m.fleet.addPod now home key).2).syncGroup home
        membership.firewall).2.Agrees dialect parent group := by
      by_cases hgroup : group = home
      · subst hgroup
        refine agrees_syncGroup hstocked' hjoined hsynced fun l hl d a ha hpart => ?_
        rcases Fleet.ledger?_addPod m.fleet now group key group with
          hledger | ⟨-, -, l', hl', -, happlied⟩
        · exact ((hsame hledger l hl d a hpart).1 ha).2.1
        · -- no record applies on a new firewall
          obtain rfl := Option.some.inj (hl.symm.trans hl')
          rw [happlied] at ha
          cases d <;> cases ha
      · have hledger := (Fleet.ledger?_addPod m.fleet now home key group).resolve_right
          fun h => hgroup h.2.1
        exact (hsame hledger).syncGroup hstocked' hjoined hgroup hsynced
    rw [hsync] at hdone
    exact hdone.congr (Fleet.ledger?_markSynced ..) rfl rfl rfl

/-- Handling a change of a pod leaves the agreement with a policy alone. -/
theorem Agrees.onPod {ns : String} (hm : m.fleet.Fitting) (hstocked : m.Stocked)
    (h : ∀ group, group.namespaceName = ns → m.Agrees dialect parent group)
    (hok : (m.onPod now key change).1 = .ok ()) :
    ∀ group, group.namespaceName = ns → (m.onPod now key change).2.Agrees dialect parent group := by
  obtain ⟨hregroup, hrest⟩ := onPod_cases hok
  have hregrouped := fun group hgroup => (h group hgroup).regroup hm hstocked hregroup
  rcases hrest with hrest | ⟨affected, hrefresh⟩
  · rwa [hrest]
  · obtain ⟨hgrown, -⟩ := grows_regroup hstocked hregroup fun _ _ => trivial
    have hagrees := Agrees.refresh (hgrown.fitting hm) hregrouped (congrArg Prod.fst hrefresh)
    rwa [hrefresh] at hagrees

end Manager

end PodFirewall
