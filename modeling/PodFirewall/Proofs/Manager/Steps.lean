import PodFirewall.Manager.Basic
import PodFirewall.Proofs.Firewall.Known
import PodFirewall.Proofs.Policy.Naming

/-!
What a manager does to the firewalls. Apart from creating and destroying them,
it changes them only by operations on their records. `Fleet.Steps` says so once,
with the operations that are allowed on each group, and `Fleet.Steps.lift`
carries what one operation does to a ledger over to all of them.
-/

namespace PodFirewall

def Operation.Asks (P : Record → Prop) : Operation → Prop
  | .apply record _ => P record
  | _ => True

/-- Whether a property of ledgers holds of new ones, is kept by operations that
apply records of a kind only, and says that no other records apply. -/
structure Ledger.Invariant (P : Record → Prop) (I : Ledger → Prop) : Prop where
  fresh : ∀ l : Ledger, l.rules = ∅ → l.applied = ⟨[], []⟩ → I l
  step : ∀ (s : Site) (o : Operation), o.Asks P → I s.ledger → I (s.step o).2.ledger
  records : ∀ l, I l → ∀ d, ∀ a ∈ l.applied.get d, P a.record

def Ledger.Applies (P : Record → Prop) (l : Ledger) : Prop := ∀ d, ∀ a ∈ l.applied.get d, P a.record

theorem Ledger.Applies.invariant (P : Record → Prop) : Ledger.Invariant P (Ledger.Applies P) where
  fresh l _ happlied d a ha := by
    rw [happlied] at ha
    cases d <;> cases ha
  step s o ho hs d a ha := by
    rcases Site.mem_applied_step ha with ha | ⟨record, rules, rfl, rfl⟩
    · exact hs d a ha
    · exact ho
  records _ h := h

theorem Deployed.mem_appliedRecords {f : Deployed} {r : Record} :
    r ∈ f.appliedRecords ↔ ∃ d, ∃ a ∈ f.ledger.applied.get d, a.record = r := by
  simp only [appliedRecords, List.mem_flatMap, List.mem_map]
  constructor
  · rintro ⟨d, -, h⟩
    exact ⟨d, h⟩
  · rintro ⟨d, h⟩
    exact ⟨d, by cases d <;> decide, h⟩

namespace Fleet

def ledger? (f : Fleet) (group : PodGroup) : Option Ledger :=
  (f.groups.get? group).map (·.firewall.ledger)

def All (I : Ledger → Prop) (f : Fleet) : Prop := ∀ group l, f.ledger? group = some l → I l

variable {f f' f'' : Fleet} {group group' : PodGroup} {s : Site} {l : Ledger}

theorem ledger?_of_site? (h : f.site? group = some s) : f.ledger? group = some s.ledger := by
  obtain ⟨g, hg, rfl⟩ := Option.map_eq_some_iff.1 h
  rw [ledger?, hg]
  rfl

theorem site?_of_ledger? (h : f.ledger? group = some l) :
    ∃ s, f.site? group = some s ∧ s.ledger = l := by
  obtain ⟨g, hg, rfl⟩ := Option.map_eq_some_iff.1 h
  exact ⟨⟨g.firewall, f.backend⟩, by rw [site?, hg]; rfl, rfl⟩

theorem ledger?_update_self (h : f.site? group = some s) (s' : Site) :
    (f.update group s').ledger? group = some s'.ledger := by
  obtain ⟨g, hg, rfl⟩ := Option.map_eq_some_iff.1 h
  simp only [ledger?, update, hg, OrdMap.get?_insert_self, Option.map_some]

theorem ledger?_update_of_ne (f : Fleet) (s' : Site) (h : group' ≠ group) :
    (f.update group s').ledger? group' = f.ledger? group' := by
  unfold ledger? update
  dsimp only
  split
  · rw [OrdMap.get?_insert_of_ne _ _ h]
  · rfl

/-! ### Operations on firewalls -/

/-- Whether a fleet comes from another one by allowed operations on its
firewalls. -/
inductive Steps (allowed : PodGroup → Operation → Prop) (f : Fleet) : Fleet → Prop where
  | refl : Steps allowed f f
  | tail {f' : Fleet} {group : PodGroup} {s : Site} {o : Operation} : Steps allowed f f' →
      f'.site? group = some s → allowed group o → Steps allowed f (f'.update group (s.step o).2)

namespace Steps

variable {allowed allowed' : PodGroup → Operation → Prop}

theorem trans (h : Steps allowed f f') (h' : Steps allowed f' f'') : Steps allowed f f'' := by
  induction h' with
  | refl => exact h
  | tail _ hsite ho ih => exact ih.tail hsite ho

theorem mono (h : Steps allowed f f') (himp : ∀ group o, allowed group o → allowed' group o) :
    Steps allowed' f f' := by
  induction h with
  | refl => exact .refl
  | tail _ hsite ho ih => exact ih.tail hsite (himp _ _ ho)

/-- What each operation does to the ledger of a group, all of them do. -/
theorem lift {R : Ledger → Ledger → Prop} (hrefl : ∀ l, R l l)
    (htrans : ∀ {l l' l''}, R l l' → R l' l'' → R l l'')
    (hstep : ∀ (s : Site) o, allowed group o → R s.ledger (s.step o).2.ledger)
    (h : Steps allowed f f') (hl : f.ledger? group = some l) :
    ∃ l', f'.ledger? group = some l' ∧ R l l' := by
  induction h with
  | refl => exact ⟨l, hl, hrefl l⟩
  | @tail f' group' s o _ hsite ho ih =>
    obtain ⟨l', hl', hR⟩ := ih
    by_cases hg : group = group'
    · subst hg
      rw [ledger?_of_site? hsite, Option.some.injEq] at hl'
      subst hl'
      exact ⟨_, ledger?_update_self hsite _, htrans hR (hstep s o ho)⟩
    · exact ⟨l', by rwa [ledger?_update_of_ne _ _ hg], hR⟩

/-- A group that no operation is about keeps its ledger. -/
theorem ledger?_eq (h : Steps allowed f f') (hnone : ∀ o, ¬allowed group o) :
    f'.ledger? group = f.ledger? group := by
  induction h with
  | refl => rfl
  | @tail f' group' s o _ hsite ho ih =>
    have hg : group ≠ group' := fun hg => hnone o (hg ▸ ho)
    rw [ledger?_update_of_ne _ _ hg, ih]

theorem isSome_ledger? (h : Steps allowed f f') (group : PodGroup) :
    (f'.ledger? group).isSome = (f.ledger? group).isSome := by
  induction h with
  | refl => rfl
  | @tail f' group' s o _ hsite ho ih =>
    by_cases hg : group = group'
    · subst hg
      rw [← ih, ledger?_update_self hsite, ledger?_of_site? hsite]
      rfl
    · rw [ledger?_update_of_ne _ _ hg, ih]

theorem all {P : Record → Prop} {I : Ledger → Prop} (h : Steps allowed f f') (hf : f.All I)
    (hI : Ledger.Invariant P I) (hP : ∀ group o, allowed group o → o.Asks P) : f'.All I := by
  intro group l' hl'
  have hsome := h.isSome_ledger? group
  rw [hl'] at hsome
  obtain ⟨l, hl⟩ := Option.isSome_iff_exists.1 hsome.symm
  obtain ⟨l'', hl'', hkeep⟩ := h.lift (R := fun l l' => I l → I l') (fun _ h => h)
    (fun h h' hl => h' (h hl)) (fun s o ho => hI.step s o (hP group o ho)) hl
  rw [hl', Option.some.injEq] at hl''
  subst hl''
  exact hkeep (hf group l hl)

end Steps

/-! ### Groups that come and go -/

theorem ledger?_release (now : Nat) (pod : ObjectKey) (keep : Option PodGroup) (f : Fleet)
    (b : Backend) (group : PodGroup) :
    (Fleet.mk (release now pod keep f.groups) b).ledger? group = f.ledger? group := by
  simp only [ledger?, release, OrdMap.get?_map, Option.map_map]
  refine Option.map_congr fun g _ => ?_
  simp only [Function.comp_apply, leave]
  split
  · rfl
  · split <;> rfl

theorem ledger?_insert_self (groups : OrdMap PodGroup GroupState) (group : PodGroup)
    (g : GroupState) (b : Backend) :
    (Fleet.mk (groups.insert group g) b).ledger? group = some g.firewall.ledger := by
  rw [ledger?, OrdMap.get?_insert_self]
  rfl

theorem ledger?_insert_of_ne (groups : OrdMap PodGroup GroupState) (g : GroupState) (b : Backend)
    (h : group' ≠ group) :
    (Fleet.mk (groups.insert group g) b).ledger? group' = (Fleet.mk groups b).ledger? group' := by
  rw [ledger?, OrdMap.get?_insert_of_ne _ _ h]
  rfl

/-- A pod that is put into its group leaves all ledgers as they are; a new group
gets one without rules and records. -/
theorem ledger?_addPod (f : Fleet) (now : Nat) (group : PodGroup) (pod : ObjectKey)
    (group' : PodGroup) :
    (f.addPod now group pod).2.ledger? group' = f.ledger? group' ∨
      f.ledger? group' = none ∧ group' = group ∧
        ∃ l, (f.addPod now group pod).2.ledger? group' = some l ∧ l.rules = ∅ ∧
          l.applied = ⟨[], []⟩ := by
  have hsame := ledger?_release now pod (some group) f f.backend
  unfold addPod
  dsimp only
  split
  · rename_i g hg
    left
    by_cases hgroup : group' = group
    · subst hgroup
      rw [← hsame, ledger?_insert_self, ledger?, hg]
      rfl
    · rw [ledger?_insert_of_ne _ _ _ hgroup, hsame]
  · rename_i hnone
    split
    · exact .inl (ledger?_release now pod (some group) f _ group')
    · rename_i firewall b hcreate
      by_cases hgroup : group' = group
      · subst hgroup
        refine .inr ⟨?_, rfl, firewall.ledger, ledger?_insert_self .., ?_⟩
        · rw [← hsame, ledger?, hnone]
          rfl
        · unfold Site.create at hcreate
          split at hcreate
          · cases hcreate
          · split at hcreate
            · cases hcreate
            · obtain ⟨hfirewall, -⟩ := Prod.mk.inj hcreate
              rw [← Except.ok.inj hfirewall]
              exact ⟨rfl, rfl⟩
      · left
        rw [ledger?_insert_of_ne _ _ _ hgroup]
        exact ledger?_release now pod (some group) f _ group'

theorem ledger?_markSynced (f : Fleet) (group group' : PodGroup) :
    (f.markSynced group).ledger? group' = f.ledger? group' := by
  unfold markSynced
  split
  · rename_i g hg
    by_cases hgroup : group' = group
    · subst hgroup
      rw [ledger?_insert_self, ledger?, hg]
      rfl
    · exact ledger?_insert_of_ne _ _ _ hgroup
  · rfl

theorem ledger?_destroyEach (groups : List (PodGroup × GroupState)) (f : Fleet)
    (group : PodGroup) :
    (destroyEach groups f).2.ledger? group = f.ledger? group ∨
      (destroyEach groups f).2.ledger? group = none := by
  induction groups generalizing f with
  | nil => exact .inl rfl
  | cons e rest ih =>
    unfold destroyEach
    split
    · rename_i b _
      dsimp only
      rcases ih ⟨f.groups.erase e.1, _⟩ with hrest | hrest
      · rw [hrest]
        by_cases hgroup : group = e.1
        · right
          rw [ledger?, hgroup, OrdMap.get?_erase_self]
          rfl
        · left
          rw [ledger?, OrdMap.get?_erase_of_ne _ hgroup]
          rfl
      · exact .inr hrest
    · exact ih _

theorem All.addPod {P : Record → Prop} {I : Ledger → Prop} (hf : f.All I)
    (hI : Ledger.Invariant P I) (now : Nat) (group : PodGroup) (pod : ObjectKey) :
    (f.addPod now group pod).2.All I := by
  intro group' l hl
  rcases ledger?_addPod f now group pod group' with hsame | ⟨-, -, l', hl', hrules, happlied⟩
  · exact hf group' l (hsame ▸ hl)
  · rw [hl, Option.some.injEq] at hl'
    exact hI.fresh l (hl' ▸ hrules) (hl' ▸ happlied)

end Fleet

namespace Manager

open Fleet (Steps)

variable {f : Fleet} {group : PodGroup} {o : Operation} {allowed : PodGroup → Operation → Prop}

/-! ### What the functions of a manager do to firewalls -/

theorem attempt_cases (f : Fleet) (group : PodGroup) (o : Operation) :
    f.ledger? group = none ∧ attempt f group (·.step o) = (0, f) ∨
      ∃ s, f.site? group = some s ∧
        (attempt f group (·.step o)).2 = f.update group (s.step o).2 ∧
        ((attempt f group (·.step o)).1 = 0 → (s.step o).1 = .ok ()) := by
  unfold attempt Fleet.onGroup
  cases hsite : f.site? group with
  | none =>
    refine .inl ⟨?_, rfl⟩
    rw [Fleet.site?, Option.map_eq_none_iff] at hsite
    rw [Fleet.ledger?, hsite]
    rfl
  | some s =>
    refine .inr ⟨s, rfl, ?_⟩
    dsimp only
    rcases hstep : s.step o with ⟨e | ⟨⟨⟩⟩, s'⟩
    · exact ⟨rfl, nofun⟩
    · exact ⟨rfl, fun _ => rfl⟩

theorem steps_attempt (f : Fleet) (h : allowed group o) :
    Steps allowed f (attempt f group (·.step o)).2 := by
  rcases attempt_cases f group o with ⟨-, hnone⟩ | ⟨s, hsite, hupdate, -⟩
  · rw [hnone]
    exact .refl
  · rw [hupdate]
    exact Steps.refl.tail hsite h

theorem steps_applyEach {resolved : List Resolved}
    (h : ∀ r ∈ resolved, ∀ rules, r.2 = .ok rules → allowed group (.apply r.1 rules)) (n : Nat)
    (f : Fleet) : Steps allowed f (applyEach group resolved n f).2 := by
  induction resolved generalizing n f with
  | nil => exact .refl
  | cons r rest ih =>
    obtain ⟨hr, hrest⟩ := List.forall_mem_cons.1 h
    obtain ⟨record, e | rules⟩ := r
    · exact ih hrest _ _
    · exact (steps_attempt f (hr rules rfl)).trans (ih hrest _ _)

theorem steps_ceaseEach {records : List Record} (h : ∀ r ∈ records, allowed group (.cease r.name))
    (n : Nat) (f : Fleet) : Steps allowed f (ceaseEach group records n f).2 := by
  induction records generalizing n f with
  | nil => exact .refl
  | cons r rest ih =>
    obtain ⟨hr, hrest⟩ := List.forall_mem_cons.1 h
    exact (steps_attempt f hr).trans (ih hrest _ _)

theorem steps_removeFrom {dialect : Dialect} {parent : String}
    (h : allowed group (.ceaseParent dialect parent)) (f : Fleet) :
    Steps allowed f (removeFrom dialect parent group f).2 := by
  unfold removeFrom
  split
  · exact .refl
  · split
    · exact steps_attempt f h
    · exact .refl

def covered (records : List Record) (group : PodGroup) : Bool :=
  records.head?.any fun r => r.subject.covers group.namespaceName group.labels

def resolveAll (resolver : Resolver) (records : List Record) : List Resolved :=
  records.map fun r => (r, resolver.resolve r)

theorem deployTo_eq (resolver : Resolver) (dialect : Dialect) (parent : String)
    (records : List Record) (group : PodGroup) (f : Fleet) :
    deployTo resolver dialect parent records group f =
      if covered records group then
        let applied := applyEach group (resolveAll resolver records) 0 f
        ceaseEach group (outdated applied.2 group dialect parent (records.map (·.name)))
          applied.1 applied.2
      else removeFrom dialect parent group f := by
  cases records <;> rfl

theorem steps_deployTo (resolver : Resolver) (dialect : Dialect) (parent : String)
    (records : List Record) (group : PodGroup) (f : Fleet) :
    Steps (fun g o => g = group ∧ o.Asks (· ∈ records)) f
      (deployTo resolver dialect parent records group f).2 := by
  have hrecords : ∀ r ∈ resolveAll resolver records, ∀ rules, r.2 = .ok rules →
      group = group ∧ (Operation.apply r.1 rules).Asks (· ∈ records) := by
    intro r hr rules _
    obtain ⟨record, hrecord, rfl⟩ := List.mem_map.1 hr
    exact ⟨rfl, hrecord⟩
  rw [deployTo_eq]
  split
  · exact (steps_applyEach hrecords _ _).trans (steps_ceaseEach (fun r _ => ⟨rfl, trivial⟩) _ _)
  · exact steps_removeFrom ⟨rfl, trivial⟩ f

theorem steps_forEach {op : PodGroup → Fleet → Nat × Fleet} {groups : List PodGroup}
    (h : ∀ group ∈ groups, ∀ f, Steps allowed f (op group f).2) (n : Nat) (f : Fleet) :
    Steps allowed f (forEach op groups n f).2 := by
  induction groups generalizing n f with
  | nil => exact .refl
  | cons group rest ih =>
    obtain ⟨hgroup, hrest⟩ := List.forall_mem_cons.1 h
    exact (hgroup f).trans (ih hrest _ _)

end Manager

end PodFirewall
