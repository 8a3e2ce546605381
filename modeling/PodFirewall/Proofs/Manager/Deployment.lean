import PodFirewall.Proofs.Manager.Reach

/-!
Deploying a policy. If it succeeds, then on each firewall the names known of
the policy are those of the records that its present version asks for there,
except for names that were left over before. A name of an older version is found
by the records that apply, and a name that is left over does not apply any more:
it is only known by its rules, and a retry does not look at these unless the
policy does not cover the firewall.
-/

namespace PodFirewall

open Site (Named)

namespace Ledger

structure Grown (records : List Record) (l l' : Ledger) : Prop where
  applied : ∀ d, ∀ a ∈ l'.applied.get d, a ∈ l.applied.get d ∨ a.record ∈ records
  named : ∀ d name, Named l d name → Named l' d name
  rules : ∀ name, l'.HasRules name → l.HasRules name ∨ ∃ d, Named l' d name

namespace Grown

variable {records : List Record} {l l' l'' : Ledger}

theorem refl (l : Ledger) : Grown records l l := ⟨fun _ _ => .inl, fun _ _ => id, fun _ => .inl⟩

theorem trans (h : Grown records l l') (h' : Grown records l' l'') : Grown records l l'' where
  applied d a ha := (h'.applied d a ha).elim (h.applied d a) .inr
  named d name hnamed := h'.named d name (h.named d name hnamed)
  rules name hrules := by
    rcases h'.rules name hrules with hrules | happlies
    · rcases h.rules name hrules with hrules | ⟨d, hd⟩
      · exact .inl hrules
      · exact .inr ⟨d, h'.named d name hd⟩
    · exact .inr happlies

/-- After records were applied, a name that is known applies or was left over
before. -/
theorem knows (h : Grown records l l') {name : String} (hname : l'.Knows name) :
    (∃ d, Named l' d name) ∨ l.LeftOver name := by
  rcases hname with hrules | happlies
  · rcases h.rules name hrules with hrules | happlies
    · by_cases happlies : ∃ d, Named l d name
      · obtain ⟨d, hd⟩ := happlies
        exact .inl ⟨d, h.named d name hd⟩
      · exact .inr ⟨hrules, fun d hd => happlies ⟨d, hd⟩⟩
    · exact .inl happlies
  · exact .inl happlies

theorem step (s : Site) {record : Record} (rules : List Rule) (h : record ∈ records) :
    Grown records s.ledger (s.step (.apply record rules)).2.ledger where
  applied d a ha := by
    rcases Site.mem_applied_step ha with ha | ⟨record', rules', ho, rfl⟩
    · exact .inl ha
    · cases ho
      exact .inr h
  named d name hnamed := Site.named_step hnamed rfl
  rules name := Site.hasRules_step

end Grown

end Ledger

namespace Manager

open Fleet (Steps)

variable {f f' : Fleet} {group : PodGroup} {l l' : Ledger} {dialect : Dialect}
  {parent name : String}

/-! ### Removing -/

/-- Operations that apply nothing make no name known. -/
theorem knows_of_steps {allowed : PodGroup → Operation → Prop} (h : Steps allowed f f')
    (hnone : ∀ o, allowed group o → o.Asks fun _ => False) (hl : f.ledger? group = some l)
    (hl' : f'.ledger? group = some l') (hname : l'.Knows name) : l.Knows name := by
  obtain ⟨l'', hl'', hkeep⟩ := h.lift (R := fun l l' => ∀ name, l'.Knows name → l.Knows name)
    (fun _ _ h => h) (fun h h' name hname => h name (h' name hname))
    (fun s o ho name hname => by
      rcases Site.knows_step hname with hname | ⟨record, rules, rfl, -⟩
      · exact hname
      · exact (hnone _ ho).elim) hl
  rw [hl', Option.some.injEq] at hl''
  exact hkeep name (hl'' ▸ hname)

theorem not_knows_attempt {o : Operation} (htakes : o.takes name = true)
    (hok : (attempt f group (·.step o)).1 = 0)
    (hl' : (attempt f group (·.step o)).2.ledger? group = some l') : ¬l'.Knows name := by
  rcases attempt_cases f group o with ⟨hnone, hattempt⟩ | ⟨s, hsite, hupdate, hdone⟩
  · rw [hattempt, hnone] at hl'
    cases hl'
  · rw [hupdate, Fleet.ledger?_update_self hsite, Option.some.injEq] at hl'
    rw [← hl']
    exact Site.not_knows_step htakes (hdone hok)

theorem not_knows_ceaseEach {records : List Record} {n : Nat}
    (hok : (ceaseEach group records n f).1 = 0)
    (hl' : (ceaseEach group records n f).2.ledger? group = some l') :
    n = 0 ∧ ∀ r ∈ records, ¬l'.Knows r.name := by
  induction records generalizing n f with
  | nil => exact ⟨hok, by simp⟩
  | cons r rest ih =>
    obtain ⟨hcount, hrest⟩ := ih hok hl'
    obtain ⟨hn, hceased⟩ := Nat.add_eq_zero_iff.1 hcount
    refine ⟨hn, List.forall_mem_cons.2 ⟨fun hname => ?_, hrest⟩⟩
    have hsteps : Steps (fun _ o => o.Asks fun _ => False)
        (attempt f group fun s => s.cease r.name).2 (ceaseEach group (r :: rest) n f).2 :=
      steps_ceaseEach (fun _ _ => trivial) _ _
    have hsome := hsteps.isSome_ledger? group
    rw [hl'] at hsome
    obtain ⟨l, hl⟩ := Option.isSome_iff_exists.1 hsome.symm
    have hgone : ¬l.Knows r.name :=
      not_knows_attempt (o := .cease r.name) (by simp [Operation.takes]) hceased hl
    exact hgone (knows_of_steps hsteps (fun _ h => h) hl hl' hname)

theorem not_knows_of_not_implements {f : Deployed} (h : f.implements dialect parent = false)
    (hname : Record.belongsTo dialect parent name = true) : ¬f.ledger.Knows name := by
  rw [Deployed.implements, Bool.or_eq_false_iff, List.any_eq_false, List.any_eq_false] at h
  rintro (hrules | ⟨d, a, ha, rfl⟩)
  · exact h.1 name hrules.mem_keys hname
  · exact h.2 a.record (Deployed.mem_appliedRecords.2 ⟨d, a, ha, rfl⟩) hname

/-- A policy that was removed with success is not known any more. -/
theorem not_knows_removeFrom (hok : (removeFrom dialect parent group f).1 = 0)
    (hl' : (removeFrom dialect parent group f).2.ledger? group = some l')
    (hname : Record.belongsTo dialect parent name = true) : ¬l'.Knows name := by
  unfold removeFrom at hok hl'
  split at hl'
  · rename_i hnone
    rw [Fleet.site?, Option.map_eq_none_iff] at hnone
    rw [Fleet.ledger?, hnone] at hl'
    cases hl'
  · rename_i s hsite
    split at hl' <;> rename_i himplements
    · simp only [hsite, if_pos himplements] at hok
      exact not_knows_attempt (o := .ceaseParent dialect parent) hname hok hl'
    · rw [Fleet.ledger?_of_site? hsite, Option.some.injEq] at hl'
      rw [← hl']
      exact not_knows_of_not_implements (by simpa using himplements) hname

/-! ### One firewall -/

/-- What a firewall knows of a policy that was deployed to it with success are
names of the records, if it covers the group, and names left over before. -/
theorem deployTo_exact {resolver : Resolver} {records : List Record}
    (hok : (deployTo resolver dialect parent records group f).1 = 0)
    (hl : f.ledger? group = some l)
    (hl' : (deployTo resolver dialect parent records group f).2.ledger? group = some l')
    (hparent : '#' ∉ parent.toList) (hrecords : ∀ r ∈ records, r.WellNamed)
    (hwell : ∀ d, ∀ a ∈ l.applied.get d, a.record.WellNamed)
    (hname : Record.belongsTo dialect parent name = true) (hknown : l'.Knows name) :
    covered records group = true ∧ (name ∈ records.map (·.name) ∨ l.LeftOver name) := by
  rw [deployTo_eq] at hok hl'
  split at hok <;> rename_i hcovered
  · rw [if_pos hcovered] at hl'
    refine ⟨hcovered, ?_⟩
    dsimp only at hok hl'
    have happlied : Steps (fun g o => g = group ∧ ∃ r ∈ records, ∃ rules, o = .apply r rules) f
        (applyEach group (resolveAll resolver records) 0 f).2 := by
      refine steps_applyEach (fun r hr rules _ => ?_) 0 f
      obtain ⟨record, hrecord, rfl⟩ := List.mem_map.1 hr
      exact ⟨rfl, record, hrecord, rules, rfl⟩
    obtain ⟨l₁, hl₁, hgrown⟩ := happlied.lift (R := Ledger.Grown records) .refl .trans
      (fun s o ⟨_, r, hr, rules, ho⟩ => ho ▸ .step s rules hr) hl
    obtain ⟨-, hgone⟩ := not_knows_ceaseEach hok hl'
    have hbefore := knows_of_steps
      (show Steps (fun _ o => o.Asks fun _ => False) _ _ from
        steps_ceaseEach (fun _ _ => trivial) _ _) (fun _ h => h) hl₁ hl' hknown
    rcases hgrown.knows hbefore with ⟨d, a, ha, rfl⟩ | hleft
    · left
      by_contra hmissing
      -- the record applies and is part of the policy, so it is removed as outdated
      have hrecord : a.record.WellNamed := (hgrown.applied d a ha).elim (hwell d a) (hrecords _)
      obtain ⟨s, hsite, rfl⟩ := Fleet.site?_of_ledger? hl₁
      refine hgone a.record ?_ hknown
      rw [outdated, hsite]
      refine List.mem_filter.2 ⟨Deployed.mem_appliedRecords.2 ⟨d, a, ha, rfl⟩, ?_⟩
      have hpolicy := (hrecord.belongsTo_iff hparent).1 hname
      simp only [hpolicy, beq_self_eq_true, Bool.true_and, Bool.not_eq_true',
        List.contains_eq_mem, decide_eq_false_iff_not]
      exact hmissing
    · exact .inr hleft
  · rw [if_neg hcovered] at hl'
    exact absurd hknown (not_knows_removeFrom hok hl' hname)

/-! ### All firewalls -/

/-- What an operation leads to on each firewall it succeeds on, working on all
of them leads to on each. -/
theorem forEach_exact (op : PodGroup → Fleet → Nat × Fleet)
    (Post : PodGroup → Ledger → Ledger → Prop)
    (hlocal : ∀ group f, Steps (fun g _ => g = group) f (op group f).2)
    (hpost : ∀ group f, (op group f).1 = 0 → ∀ l l', f.ledger? group = some l →
      (op group f).2.ledger? group = some l' → Post group l l')
    {groups : List PodGroup} {n : Nat} {f : Fleet} (hnodup : groups.Nodup)
    (hok : (forEach op groups n f).1 = 0) :
    n = 0 ∧ ∀ group ∈ groups, ∀ l l', f.ledger? group = some l →
      (forEach op groups n f).2.ledger? group = some l' → Post group l l' := by
  induction groups generalizing n f with
  | nil => exact ⟨hok, by simp⟩
  | cons first rest ih =>
    obtain ⟨hfirst, hrest⟩ := List.nodup_cons.1 hnodup
    obtain ⟨hcount, hall⟩ := ih hrest hok
    obtain ⟨hn, hdone⟩ := Nat.add_eq_zero_iff.1 hcount
    refine ⟨hn, fun group hgroup l l' hl hl' => ?_⟩
    rcases List.mem_cons.1 hgroup with rfl | hgroup
    · -- the other groups leave this one alone
      have hsteps : Steps (fun g _ => g ∈ rest) (op group f).2
          (forEach op (group :: rest) n f).2 :=
        steps_forEach (fun g hg f => (hlocal g f).mono fun _ _ heq => heq ▸ hg) _ _
      rw [hsteps.ledger?_eq fun _ => hfirst] at hl'
      exact hpost group f hdone l l' hl hl'
    · have hne : group ≠ first := fun heq => hfirst (heq ▸ hgroup)
      rw [← (hlocal first f).ledger?_eq fun _ => hne] at hl
      exact hall group hgroup l l' hl hl'

theorem mem_groupsIn {ns : String} :
    group ∈ groupsIn f ns ↔ (f.ledger? group).isSome ∧ group.namespaceName = ns := by
  rw [groupsIn, List.mem_filter, OrdMap.mem_keys, Fleet.ledger?, Option.isSome_map, beq_iff_eq]

theorem nodup_groupsIn (f : Fleet) (ns : String) : (groupsIn f ns).Nodup := by
  refine List.Pairwise.filter _ ?_
  rw [OrdMap.keys, List.pairwise_map]
  refine f.groups.sorted.imp fun hlt heq => ?_
  rw [heq, Std.ReflOrd.compare_self] at hlt
  cases hlt

variable {m : Manager} {p : Policy} {key : ObjectKey}

/-- The records of a policy cover a group together or not at all. -/
theorem wanted_of_covered {records : List Record} (hrecords : m.records p = .ok (some records))
    (h : covered records group = true) : m.wanted p group = records := by
  obtain ⟨service, hservice⟩ := records_some hrecords
  obtain ⟨head, -, hof⟩ := Policy.records_ok hservice
  rw [wanted, hrecords]
  refine List.filter_eq_self.2 fun r hr => ?_
  rw [covered, Option.any_eq_true] at h
  obtain ⟨first, hfirst, hcovers⟩ := h
  rw [(hof r hr).subject, ← (hof first (List.mem_of_mem_head? hfirst)).subject]
  exact hcovers

theorem name_of_key? (h : p.key? = some key) : p.metadata.name.getD "" = key.name := by
  obtain ⟨name, hname, rfl⟩ := Option.map_eq_some_iff.1 h
  rw [hname]
  rfl

/-- When a policy was deployed with success, all names that a firewall of its
namespace knows of it are names of records that its present version asks for
there, provided that on a firewall it covers this held of the names left over
before. -/
theorem deployed_exact (hm : m.Reached Policy.PlainName) (hp : p.PlainName)
    (hkey : p.key? = some key) (hok : (m.deployPolicy p).1 = .ok ())
    (hgroup : group.namespaceName = key.namespaceName)
    (hclean : m.wanted p group ≠ [] → ∀ l, m.fleet.ledger? group = some l → ∀ name,
      Record.belongsTo p.dialect key.name name = true → l.LeftOver name →
        name ∈ (m.wanted p group).map (·.name))
    (hl' : (m.deployPolicy p).2.fleet.ledger? group = some l')
    (hname : Record.belongsTo p.dialect key.name name = true) (hknown : l'.Knows name) :
    name ∈ (m.wanted p group).map (·.name) := by
  have hparent : '#' ∉ key.name.toList := name_of_key? hkey ▸ hp
  have hsteps := steps_deployPolicy (m := m) (P := fun _ => True) (p := p) fun _ _ _ _ _ => trivial
  have hsome : (m.fleet.ledger? group).isSome := by
    rw [← hsteps.isSome_ledger? group, hl']
    rfl
  obtain ⟨l, hl⟩ := Option.isSome_iff_exists.1 hsome
  have hmem : group ∈ groupsIn m.fleet key.namespaceName := mem_groupsIn.2 ⟨hsome, hgroup⟩
  unfold deployPolicy at hok hl'
  simp only [hkey] at hok hl'
  split at hok
  · cases hok
  · rename_i hrecords
    simp only [hrecords] at hl'
    -- a policy that cannot be enforced is removed from all firewalls
    obtain ⟨-, hgone⟩ := forEach_exact (removeFrom p.dialect key.name)
      (fun _ _ l' => ∀ name, Record.belongsTo p.dialect key.name name = true →
        ¬l'.Knows name)
      (fun group f => steps_removeFrom rfl f)
      (fun group f hdone l l' _ hl' name hname => not_knows_removeFrom hdone hl' hname)
      (nodup_groupsIn m.fleet key.namespaceName) (failures_eq_ok.1 hok)
    exact absurd hknown (hgone group hmem l l' hl hl' name hname)
  · rename_i records hrecords
    simp only [hrecords] at hl'
    obtain ⟨service, hservice⟩ := records_some hrecords
    obtain ⟨-, hexact⟩ := forEach_exact (deployTo m.resolver p.dialect key.name records)
      (fun group l l' => (∀ d, ∀ a ∈ l.applied.get d, a.record.WellNamed) →
        ∀ name, Record.belongsTo p.dialect key.name name = true → l'.Knows name →
          covered records group = true ∧ (name ∈ records.map (·.name) ∨ l.LeftOver name))
      (fun group f => (steps_deployTo ..).mono fun _ _ h => h.1)
      (fun group f hdone l l' hl hl' hwell name hname hknown =>
        deployTo_exact hdone hl hl' hparent (hp.supplies service records hservice) hwell hname
          hknown)
      (nodup_groupsIn m.fleet key.namespaceName) (failures_eq_ok.1 hok)
    obtain ⟨hcovered, hnew | hleft⟩ :=
      hexact group hmem l l' hl hl' (hm.wellNamed group l hl) name hname hknown
    · rwa [wanted_of_covered hrecords hcovered]
    · refine hclean ?_ l hl name hname hleft
      rw [wanted_of_covered hrecords hcovered]
      intro hnone
      rw [hnone] at hcovered
      cases hcovered

/-- A manager that came to know one pod, and whose call with a given number is
refused. -/
def ofPod (refused : Nat) : Manager :=
  let pod : Pod := ⟨"a", "n", ∅, some "10.0.0.1", some "node", true, false, false⟩
  let faults : Nat → String → Call → Option Fault := fun n _ _ =>
    if n = refused then some .refused else none
  (onPod ⟨"node", [], none, default, default, default, .empty { Backend.empty with faults }⟩ 0
    ⟨"n", "a"⟩ ⟨.added, some ⟨0, ⟨some "a", some "n", ∅, none, none, false⟩, pod⟩, none⟩).2

theorem ofPod_reached (refused : Nat) : (ofPod refused).Reached Policy.PlainName :=
  .pod 0 _ _ (.start (m := ⟨"node", [], none, default, default, default, default⟩) _
    fun _ _ hp => by cases hp)

def openPolicy (rules : Nat) : Policy :=
  .k8s ⟨⟨some "p", some "n", ∅, none, none, false⟩,
    ⟨⟨∅, false⟩, [], List.replicate rules ⟨[], []⟩, []⟩⟩

theorem openPolicy_plainName (rules : Nat) : (openPolicy rules).PlainName := by
  simp [openPolicy, Policy.PlainName, Policy.metadata]

/-- After the rules of the first version could not all be appended, the second
version, which has one rule less, is deployed. -/
theorem deployed_exact_of_fewer :
    let m := ((ofPod 14).deployPolicy (openPolicy 2)).2
    ((ofPod 14).deployPolicy (openPolicy 2)).1.toBool = false ∧
      (m.deployPolicy (openPolicy 1)).1 = .ok () ∧
      ∃ l', (m.deployPolicy (openPolicy 1)).2.fleet.ledger? ⟨"n", ∅⟩ = some l' ∧
        ∀ name, Record.belongsTo .k8s "p" name = true → l'.Knows name → name ∈ ["k8s:p#0ip0"] := by
  intro m
  obtain ⟨hfailed, hok, hsome, hwanted, hnamed⟩ :
      ((ofPod 14).deployPolicy (openPolicy 2)).1.toBool = false ∧
        (m.deployPolicy (openPolicy 1)).1.toBool = true ∧
        ((m.deployPolicy (openPolicy 1)).2.fleet.ledger? ⟨"n", ∅⟩).isSome = true ∧
        (m.wanted (openPolicy 1) ⟨"n", ∅⟩).map (·.name) = ["k8s:p#0ip0"] ∧
        (m.fleet.ledger? ⟨"n", ∅⟩).all (fun l => l.rules.keys.all fun name =>
          (l.applied.get .incoming).any fun a => a.record.name == name) = true := by
    decide +kernel
  obtain ⟨l', hl'⟩ := Option.isSome_iff_exists.1 hsome
  refine ⟨hfailed, eq_ok_of_toBool hok, l', hl', fun name hname hknown => ?_⟩
  rw [← hwanted]
  refine deployed_exact ((ofPod_reached 14).deploy (openPolicy_plainName 2))
    (openPolicy_plainName 1) (show (openPolicy 1).key? = some ⟨"n", "p"⟩ from rfl)
    (eq_ok_of_toBool hok) rfl (fun _ l hl name _ hleft => ?_) hl' hname hknown
  rw [hl, Option.all_some, List.all_eq_true] at hnamed
  obtain ⟨a, ha, heq⟩ := List.any_eq_true.1 (hnamed name hleft.1.mem_keys)
  exact absurd ⟨a, ha, beq_iff_eq.1 heq⟩ (hleft.2 .incoming)

/-- The second version of a policy has one rule less, and the deletion of this
rule fails. A retry succeeds and leaves the rule. -/
theorem deployed_leftover :
    ¬∀ (m : Manager) (p : Policy) (key : ObjectKey), m.Reached Policy.PlainName → p.PlainName →
      p.key? = some key → (m.deployPolicy p).1 = .ok () → ∀ group l',
        group.namespaceName = key.namespaceName →
        (m.deployPolicy p).2.fleet.ledger? group = some l' → ∀ name,
          Record.belongsTo p.dialect key.name name = true → l'.Knows name →
            name ∈ (m.wanted p group).map (·.name) := by
  intro h
  let m := (((ofPod 18).deployPolicy (openPolicy 2)).2.deployPolicy (openPolicy 1)).2
  let after := (m.deployPolicy (openPolicy 1)).2.fleet.ledger? ⟨"n", ∅⟩
  have hm : m.Reached Policy.PlainName :=
    ((ofPod_reached 18).deploy (openPolicy_plainName 2)).deploy (openPolicy_plainName 1)
  obtain ⟨hok, hrules, hwanted⟩ : (m.deployPolicy (openPolicy 1)).1.toBool = true ∧
      after.any (fun l => !(l.recorded "k8s:p#1ip1" .incoming).isEmpty) = true ∧
      (m.wanted (openPolicy 1) ⟨"n", ∅⟩).map (·.name) = ["k8s:p#0ip0"] := by
    decide +kernel
  obtain ⟨l', hl', hleft⟩ := (Option.any_eq_true _ _).1 hrules
  have hmem := h m (openPolicy 1) ⟨"n", "p"⟩ hm (openPolicy_plainName 1) rfl
    (eq_ok_of_toBool hok) ⟨"n", ∅⟩ l' rfl hl' "k8s:p#1ip1" (by decide)
    (.inl ⟨.incoming, by simpa using hleft⟩)
  rw [hwanted] at hmem
  exact absurd hmem (by decide)

end Manager

end PodFirewall
