import PodFirewall.Proofs.Firewall.Apart
import PodFirewall.Proofs.Manager.Steps

/-!
The firewalls of all groups in one service. As long as groups have firewalls of
different names and no call fails, working on one firewall leaves the others in
step with their ledgers, and a new firewall starts with what its name held in
the service at first. Two groups with one name for their firewalls would share a
firewall, and each would take the rules of the other one for gone.
-/

namespace PodFirewall

namespace Fleet

open Backend (Spares)

variable {f f' : Fleet} {group group' : PodGroup} {s : Site} {dir : String → Direction}
  {b₀ : Backend} {allowed : PodGroup → Operation → Prop}

/-! ### Sites of a fleet -/

theorem isSome_site? (f : Fleet) (group : PodGroup) :
    (f.site? group).isSome = (f.ledger? group).isSome := by
  rw [site?, ledger?, Option.isSome_map, Option.isSome_map]

theorem backend_of_site? (h : f.site? group = some s) : s.backend = f.backend := by
  obtain ⟨g, -, rfl⟩ := Option.map_eq_some_iff.1 h
  rfl

theorem site?_update_self (h : f.site? group = some s) (s' : Site) :
    (f.update group s').site? group = some s' := by
  obtain ⟨g, hg, rfl⟩ := Option.map_eq_some_iff.1 h
  simp only [site?, update, hg, OrdMap.get?_insert_self, Option.map_some]

theorem site?_update_of_ne (f : Fleet) (s' : Site) (h : group' ≠ group) :
    (f.update group s').site? group' =
      (f.site? group').map fun s => { s with backend := s'.backend } := by
  unfold site? update
  dsimp only
  split
  · rw [OrdMap.get?_insert_of_ne _ _ h, Option.map_map]
    rfl
  · rw [Option.map_map]
    rfl

theorem site?_insert_self (groups : OrdMap PodGroup GroupState) (group : PodGroup)
    (g : GroupState) (b : Backend) :
    (Fleet.mk (groups.insert group g) b).site? group = some ⟨g.firewall, b⟩ := by
  rw [site?, OrdMap.get?_insert_self]
  rfl

theorem site?_insert_of_ne (groups : OrdMap PodGroup GroupState) (g : GroupState) (b : Backend)
    (h : group' ≠ group) :
    (Fleet.mk (groups.insert group g) b).site? group' = (Fleet.mk groups b).site? group' := by
  rw [site?, OrdMap.get?_insert_of_ne _ _ h]
  rfl

theorem site?_release (now : Nat) (pod : ObjectKey) (keep : Option PodGroup) (f : Fleet)
    (b : Backend) (group : PodGroup) :
    (Fleet.mk (release now pod keep f.groups) b).site? group =
      (f.site? group).map fun s => { s with backend := b } := by
  simp only [site?, release, OrdMap.get?_map, Option.map_map]
  refine Option.map_congr fun g _ => ?_
  simp only [Function.comp_apply, leave]
  split
  · rfl
  · split <;> rfl

theorem site?_markSynced (f : Fleet) (group group' : PodGroup) :
    (f.markSynced group).site? group' = f.site? group' := by
  unfold markSynced
  split
  · rename_i g hg
    by_cases hgroup : group' = group
    · subst hgroup
      rw [site?_insert_self, site?, hg]
      rfl
    · exact site?_insert_of_ne _ _ _ hgroup
  · rfl

theorem site?_same_backend (f : Fleet) (group : PodGroup) :
    ((f.site? group).map fun s => { s with backend := f.backend }) = f.site? group := by
  rw [site?, Option.map_map]
  rfl

/-- A pod comes to a group whose firewall stays as it is, or the firewall of its
group is created. -/
theorem addPod_cases {now : Nat} {pod : ObjectKey} {membership : Membership}
    (hok : (f.addPod now group pod).1 = .ok membership) :
    ((f.site? group).isSome ∧ (f.addPod now group pod).2.backend = f.backend ∧
        ∀ group', (f.addPod now group pod).2.site? group' = f.site? group') ∨
      (f.site? group = none ∧ ∃ firewall,
        Site.create f.backend group.firewallName =
          (.ok firewall, (f.addPod now group pod).2.backend) ∧
        (f.addPod now group pod).2.site? group =
          some ⟨firewall, (f.addPod now group pod).2.backend⟩ ∧
        ∀ group' ≠ group, (f.addPod now group pod).2.site? group' =
          (f.site? group').map fun s =>
            { s with backend := (f.addPod now group pod).2.backend }) := by
  have hreleased := site?_release now pod (some group) f
  unfold addPod at hok ⊢
  dsimp only at hok ⊢
  split at hok
  · rename_i g hg
    have hself : f.site? group = some ⟨g.firewall, f.backend⟩ := by
      rw [← site?_same_backend, ← hreleased, site?, hg]
      rfl
    refine .inl ⟨by rw [hself]; rfl, rfl, fun group' => ?_⟩
    by_cases hgroup : group' = group
    · rw [hgroup, site?_insert_self, hself]
    · rw [site?_insert_of_ne _ _ _ hgroup, hreleased, site?_same_backend]
  · rename_i hnone
    have hself : f.site? group = none := by
      rw [← site?_same_backend, ← hreleased, site?, hnone]
      rfl
    split at hok
    · cases hok
    · rename_i firewall b hcreate
      simp only [hcreate]
      exact .inr ⟨hself, firewall, rfl, site?_insert_self .., fun group' hgroup => by
        rw [site?_insert_of_ne _ _ _ hgroup, hreleased]⟩

/-! ### Firewalls in step -/

/-- Whether the firewalls of all groups are in step with their ledgers, each
under a name of its own, and hold what this name held in a service at first. -/
structure InStep (dir : String → Direction) (b₀ : Backend) (f : Fleet) : Prop where
  reached : f.backend.Reached
  sites : ∀ group s, f.site? group = some s →
    s.name = group.firewallName ∧ s.InStep dir (b₀.remnants s.name)
  apart : ∀ group group', (f.site? group).isSome → (f.site? group').isSome →
    group.firewallName = group'.firewallName → group = group'
  others : ∀ name, (∀ group, (f.site? group).isSome → group.firewallName ≠ name) → ∀ d,
    f.backend.remnant name d = b₀.remnant name d

namespace InStep

theorem empty (hb : b₀.Reached) : (Fleet.empty b₀).InStep dir b₀ where
  reached := hb
  sites := nofun
  apart := nofun
  others _ _ _ := rfl

theorem congr (h : f.InStep dir b₀) (hsites : ∀ group, f'.site? group = f.site? group)
    (hbackend : f'.backend = f.backend) : f'.InStep dir b₀ where
  reached := hbackend ▸ h.reached
  sites group s hs := h.sites group s (hsites group ▸ hs)
  apart group group' hg hg' := h.apart group group' (hsites group ▸ hg) (hsites group' ▸ hg')
  others name hname d := by
    rw [hbackend]
    exact h.others name (fun group hg => hname group (by rwa [hsites])) d

/-- A fleet stays in step if calls about the firewall of one group keep this
firewall in step, and only names that no other group uses are concerned. -/
theorem worked (h : f.InStep dir b₀) {name : String} (hreached : f'.backend.Reached)
    (hspares : ∀ other ≠ name, Spares other f.backend f'.backend)
    (hname : group.firewallName = name)
    (hself : ∃ s, f'.site? group = some s ∧ s.name = name ∧ s.InStep dir (b₀.remnants name))
    (hothers : ∀ group' ≠ group, f'.site? group' =
      (f.site? group').map fun s => { s with backend := f'.backend })
    (htold : ∀ group', (f.site? group').isSome → group'.firewallName = name → group' = group) :
    f'.InStep dir b₀ := by
  obtain ⟨s, hs, hsname, hstep⟩ := hself
  have hsome {group' : PodGroup} (hg : group' ≠ group) :
      (f'.site? group').isSome = (f.site? group').isSome := by
    rw [hothers group' hg, Option.isSome_map]
  refine ⟨hreached, fun group' s' hs' => ?_, fun g g' hg hg' hsame => ?_, fun other hother d => ?_⟩
  · by_cases hg : group' = group
    · subst hg
      rw [hs, Option.some.injEq] at hs'
      subst hs'
      rw [hsname]
      exact ⟨hname.symm, hstep⟩
    · rw [hothers group' hg, Option.map_eq_some_iff] at hs'
      obtain ⟨s₀, hs₀, rfl⟩ := hs'
      obtain ⟨hs₀name, hstep₀⟩ := h.sites group' s₀ hs₀
      -- the firewall of another group has another name, so it is spared
      have hne : s₀.name ≠ name := fun heq =>
        hg (htold group' (by rw [hs₀]; rfl) (hs₀name.symm.trans heq))
      have hspared := hspares s₀.name hne
      rw [← backend_of_site? hs₀] at hspared
      exact ⟨hs₀name, hstep₀.spared hspared⟩
  · by_cases hgroup : g = group
    · by_cases hgroup' : g' = group
      · rw [hgroup, hgroup']
      · rw [hgroup, hname] at hsame
        exact absurd (htold g' (hsome hgroup' ▸ hg') hsame.symm) hgroup'
    · by_cases hgroup' : g' = group
      · rw [hgroup', hname] at hsame
        exact absurd (htold g (hsome hgroup ▸ hg) hsame) hgroup
      · exact h.apart g g' (hsome hgroup ▸ hg) (hsome hgroup' ▸ hg') hsame
  · have hne : other ≠ name := fun heq => hother group (by rw [hs]; rfl) (hname.trans heq.symm)
    -- a name that no group uses now was not used before either
    rw [(hspares other hne).remnant]
    refine h.others other (fun group' hg' => ?_) d
    by_cases hg : group' = group
    · rw [hg, hname]
      exact hne.symm
    · exact hother group' (by rwa [hsome hg])

/-- An operation in which no call fails keeps all firewalls in step. -/
theorem update (h : f.InStep dir b₀) {o : Operation} (hsite : f.site? group = some s)
    (ho : o.Proper dir)
    (hfine : (s.step o).2.backend.failures Call.any = s.backend.failures Call.any) :
    (f.update group (s.step o).2).InStep dir b₀ := by
  obtain ⟨hname, hstep⟩ := h.sites group s hsite
  have hbackend := backend_of_site? hsite
  have hkeeps {P : Backend → Prop} (hP : Backend.Closed s.name P) (hs : P f.backend) :
      P (s.step o).2.backend := (hP.step (hbackend ▸ hs) o).2
  refine h.worked (hkeeps (Backend.closed_reached _) h.reached)
    (fun other hne => hkeeps (Backend.closed_spares hne _) (.refl other _)) hname.symm
    ⟨_, site?_update_self hsite _, ?_, (hstep.step (fun _ => Site.owner_of_mem_remnants) ho hfine).2⟩
    (fun _ hg => site?_update_of_ne f _ hg) fun group' hg' heq =>
      h.apart group' group hg' (by rw [hsite]; rfl) (heq.trans hname)
  exact (Backend.Closed.step (Backend.closed_reached s.name) (hbackend ▸ h.reached) o).1

/-- A pod that is put into its group keeps all firewalls in step, if no other
group uses the name of its group's firewall. -/
theorem addPod (h : f.InStep dir b₀) {now : Nat} {pod : ObjectKey} {membership : Membership}
    (htold : ∀ group', (f.site? group').isSome → group'.firewallName = group.firewallName →
      group' = group)
    (hok : (f.addPod now group pod).1 = .ok membership) :
    (f.addPod now group pod).2.InStep dir b₀ := by
  rcases addPod_cases hok with ⟨-, hbackend, hsites⟩ | ⟨hnew, firewall, hcreate, hsite, hothers⟩
  · exact h.congr hsites hbackend
  · have hcreated {P : Backend → Prop} (hP : Backend.Closed group.firewallName P)
        (hb : P f.backend) : P (f.addPod now group pod).2.backend := by
      have hmade := hP.create hb
      rwa [hcreate] at hmade
    have hleft : f.backend.remnants group.firewallName = b₀.remnants group.firewallName := by
      have hsame := h.others group.firewallName fun group' hg' heq => by
        rw [htold group' hg' heq, hnew] at hg'
        cases hg'
      rw [Backend.remnants, Backend.remnants, hsame, hsame]
    have hstep : Site.InStep dir _ _ := .created h.reached hcreate
    rw [hleft] at hstep
    obtain ⟨-, -, -, hfirewall⟩ := Site.create_cases hcreate
    exact h.worked (hcreated (Backend.closed_reached _) h.reached)
      (fun other hne => hcreated (Backend.closed_spares hne _) (.refl other _)) rfl
      ⟨_, hsite, by rw [hfirewall], hstep⟩ hothers htold

end InStep

/-! ### Steps -/

theorem failures_le_update (hsite : f.site? group = some s) (o : Operation) (kind : Call → Bool) :
    f.backend.failures kind ≤ (f.update group (s.step o).2).backend.failures kind := by
  rw [← backend_of_site? hsite]
  exact Site.failures_le_step s o kind

theorem Steps.failures_le (h : Steps allowed f f') (kind : Call → Bool) :
    f.backend.failures kind ≤ f'.backend.failures kind := by
  induction h with
  | refl => exact Nat.le_refl _
  | tail _ hsite _ ih => exact Nat.le_trans ih (failures_le_update hsite _ kind)

/-- Proper operations in which no call fails keep all firewalls in step. -/
theorem Steps.inStep (h : Steps allowed f f') (hf : f.InStep dir b₀)
    (hproper : ∀ group o, allowed group o → o.Proper dir)
    (hfine : f'.backend.failures Call.any = f.backend.failures Call.any) : f'.InStep dir b₀ := by
  induction h with
  | refl => exact hf
  | @tail f' group s o hsteps hsite ho ih =>
    -- failures are never forgotten, so none came in between
    have hle := hsteps.failures_le Call.any
    have hle' := failures_le_update hsite o Call.any
    have hbackend := congrArg (Backend.failures · Call.any) (backend_of_site? hsite)
    refine (ih (by omega)).update hsite (hproper _ _ ho) ?_
    dsimp only [Fleet.update] at hfine hle'
    omega

/-! ### Growth -/

theorem failures_le_addPod {now : Nat} {pod : ObjectKey} {membership : Membership}
    (hok : (f.addPod now group pod).1 = .ok membership) (kind : Call → Bool) :
    f.backend.failures kind ≤ (f.addPod now group pod).2.backend.failures kind := by
  rcases addPod_cases hok with ⟨-, hbackend, -⟩ | ⟨-, firewall, hcreate, -⟩
  · rw [hbackend]
  · have hle := Backend.Closed.create
      (Backend.closed_failures_le group.firewallName (f.backend.failures kind) kind) (Nat.le_refl _)
    rwa [hcreate] at hle

/-- Whether a fleet comes from another one by allowed operations, and by pods that
come to groups of a kind. -/
inductive Grows (allowed : PodGroup → Operation → Prop) (expected : PodGroup → Prop) (f : Fleet) :
    Fleet → Prop where
  | refl : Grows allowed expected f f
  | steps {f' f'' : Fleet} : Grows allowed expected f f' → Steps allowed f' f'' →
      Grows allowed expected f f''
  | same {f' f'' : Fleet} : Grows allowed expected f f' →
      (∀ group, f''.site? group = f'.site? group) → f''.backend = f'.backend →
      Grows allowed expected f f''
  | join {f' : Fleet} {now : Nat} {group : PodGroup} {pod : ObjectKey} {membership : Membership} :
      Grows allowed expected f f' → expected group →
      (f'.addPod now group pod).1 = .ok membership →
      Grows allowed expected f (f'.addPod now group pod).2

namespace Grows

variable {f'' : Fleet} {expected : PodGroup → Prop}

theorem trans (h : Grows allowed expected f f') (h' : Grows allowed expected f' f'') :
    Grows allowed expected f f'' := by
  induction h' with
  | refl => exact h
  | steps _ hsteps ih => exact ih.steps hsteps
  | same _ hsites hbackend ih => exact ih.same hsites hbackend
  | join _ hexpected hok ih => exact ih.join hexpected hok

theorem failures_le (h : Grows allowed expected f f') (kind : Call → Bool) :
    f.backend.failures kind ≤ f'.backend.failures kind := by
  induction h with
  | refl => exact Nat.le_refl _
  | steps _ hsteps ih => exact Nat.le_trans ih (hsteps.failures_le kind)
  | same _ _ hbackend ih => rwa [hbackend]
  | join _ _ hok ih => exact Nat.le_trans ih (failures_le_addPod hok kind)

theorem expected_of_isSome (h : Grows allowed expected f f')
    (hf : ∀ group, (f.site? group).isSome → expected group) :
    ∀ group, (f'.site? group).isSome → expected group := by
  induction h with
  | refl => exact hf
  | steps _ hsteps ih =>
    intro group hg
    rw [isSome_site?, hsteps.isSome_ledger?, ← isSome_site?] at hg
    exact ih group hg
  | same _ hsites _ ih => exact fun group hg => ih group (hsites group ▸ hg)
  | @join f' now group pod membership _ hexpected hok ih =>
    intro group' hg
    rcases addPod_cases hok with ⟨-, -, hsites⟩ | ⟨-, -, -, -, hothers⟩
    · exact ih group' (hsites group' ▸ hg)
    · by_cases hgroup : group' = group
      · exact hgroup ▸ hexpected
      · rw [hothers group' hgroup, Option.isSome_map] at hg
        exact ih group' hg

/-- As long as no call fails, all firewalls stay in step if the groups that are
expected have firewalls of different names. -/
theorem inStep (h : Grows allowed expected f f') (hf : f.InStep dir b₀)
    (hproper : ∀ group o, allowed group o → o.Proper dir)
    (hgroups : ∀ group, (f.site? group).isSome → expected group)
    (htold : ∀ group group', expected group → expected group' →
      group.firewallName = group'.firewallName → group = group')
    (hfine : f'.backend.failures Call.any = f.backend.failures Call.any) : f'.InStep dir b₀ := by
  induction h with
  | refl => exact hf
  | steps hgrown hsteps ih =>
    have hle := hgrown.failures_le Call.any
    have hle' := hsteps.failures_le Call.any
    exact hsteps.inStep (ih (by omega)) hproper (by omega)
  | same hgrown hsites hbackend ih =>
    rw [hbackend] at hfine
    exact (ih hfine).congr hsites hbackend
  | join hgrown hexpected hok ih =>
    have hle := hgrown.failures_le Call.any
    have hle' := failures_le_addPod hok Call.any
    exact (ih (by omega)).addPod (fun group' hg =>
      htold group' _ (hgrown.expected_of_isSome hgroups group' hg) hexpected) hok

end Grows

end Fleet

end PodFirewall
