import PodFirewall.Proofs.Manager.Deployment
import PodFirewall.Proofs.Manager.Refresh

/-!
Which records apply after policies were deployed or removed with success.
`Fleet.Exchanged` says it exactly: on the firewall of each group those that were
put in, and those that applied before and were not taken out. It is read off
single operations and composes, so a whole deployment puts in what the present
version of a policy asks for, with its rules, and takes out what other versions
left.
-/

namespace PodFirewall

namespace Fleet

/-- Whether on the firewall of each group the records apply that were put in, and
those that applied before and were not taken out. -/
structure Exchanged (into : PodGroup → Applied → Prop) (out : PodGroup → Record → Prop)
    (f f' : Fleet) : Prop where
  groups : ∀ group, (f'.ledger? group).isSome = (f.ledger? group).isSome
  ledgers : ∀ group l l', f.ledger? group = some l → f'.ledger? group = some l' →
    l.Exchanged (into group) (out group) l'

namespace Exchanged

variable {into into' : PodGroup → Applied → Prop} {out out' : PodGroup → Record → Prop}
  {f f' f'' : Fleet}

theorem refl (f : Fleet) : Exchanged (fun _ _ => False) (fun _ _ => False) f f :=
  ⟨fun _ => rfl, fun group l l' hl hl' => by
    rw [hl, Option.some.injEq] at hl'
    exact hl' ▸ .refl l⟩

theorem trans (h : Exchanged into out f f') (h' : Exchanged into' out' f' f'') :
    Exchanged (fun group a => into' group a ∨ into group a ∧ ¬out' group a.record)
      (fun group r => out group r ∨ out' group r) f f'' := by
  refine ⟨fun group => (h'.groups group).trans (h.groups group), fun group l l'' hl hl'' => ?_⟩
  have hsome := h'.groups group
  rw [hl''] at hsome
  obtain ⟨l', hl'⟩ := Option.isSome_iff_exists.1 hsome.symm
  exact (h.ledgers group l l' hl hl').trans (h'.ledgers group l' l'' hl' hl'')

theorem congr (h : Exchanged into out f f')
    (hinto : ∀ group l, f.ledger? group = some l → ∀ a, into group a ↔ into' group a)
    (hout : ∀ group l, f.ledger? group = some l → ∀ d, ∀ a ∈ l.applied.get d,
      out group a.record ↔ out' group a.record) : Exchanged into' out' f f' :=
  ⟨h.groups, fun group l l' hl hl' =>
    (h.ledgers group l l' hl hl').congr (hinto group l hl) (hout group l hl)⟩

/-- What applies on a firewall after an exchange. -/
theorem mem (h : Exchanged into out f f') {group : PodGroup} {l' : Ledger}
    (hl' : f'.ledger? group = some l') {d : Direction} {a : Applied} (ha : a ∈ l'.applied.get d) :
    into group a ∨ ∃ l, f.ledger? group = some l ∧ a ∈ l.applied.get d ∧ ¬out group a.record := by
  have hsome := h.groups group
  rw [hl'] at hsome
  obtain ⟨l, hl⟩ := Option.isSome_iff_exists.1 hsome.symm
  exact ((h.ledgers group l l' hl hl' d a).1 ha).imp (·.2) fun ha => ⟨l, hl, ha⟩

end Exchanged

end Fleet

/-- Whether the records that apply have names of their own, stand in their
directions, and are named after their places. -/
def Ledger.Neat (l : Ledger) : Prop := l.Tidy ∧ l.Applies Record.Placed

theorem Ledger.Neat.invariant : Ledger.Invariant Record.Placed Ledger.Neat :=
  Ledger.Tidy.invariant Record.Placed

namespace Manager

open Fleet (Exchanged)

variable {m : Manager} {resolver : Resolver} {f : Fleet} {group : PodGroup}

/-! ### Single operations -/

theorem exchanged_attempt {into : Applied → Prop} {out : Record → Prop} {o : Operation}
    (hstep : ∀ s : Site, f.site? group = some s → (s.step o).1 = .ok () →
      s.ledger.Exchanged into out (s.step o).2.ledger)
    (hok : (attempt f group (·.step o)).1 = 0) :
    Exchanged (fun g a => g = group ∧ into a) (fun g r => g = group ∧ out r) f
      (attempt f group (·.step o)).2 := by
  rcases attempt_cases f group o with ⟨hnone, hattempt⟩ | ⟨s, hsite, hupdate, hdone⟩
  · rw [hattempt]
    refine ⟨fun _ => rfl, fun g l l' hl hl' => ?_⟩
    have hne : g ≠ group := fun heq => by rw [heq, hnone] at hl; cases hl
    rw [hl, Option.some.injEq] at hl'
    subst hl'
    exact (Ledger.Exchanged.refl l).congr (by simp [hne]) (by simp [hne])
  · rw [hupdate]
    refine ⟨fun g => ?_, fun g l l' hl hl' => ?_⟩
    · by_cases hg : g = group
      · rw [hg, Fleet.ledger?_update_self hsite, Fleet.ledger?_of_site? hsite]
        rfl
      · rw [Fleet.ledger?_update_of_ne _ _ hg]
    · by_cases hg : g = group
      · subst hg
        rw [Fleet.ledger?_of_site? hsite, Option.some.injEq] at hl
        rw [Fleet.ledger?_update_self hsite, Option.some.injEq] at hl'
        subst hl hl'
        exact (hstep s hsite (hdone hok)).congr (by simp) (by simp)
      · rw [Fleet.ledger?_update_of_ne _ _ hg, hl, Option.some.injEq] at hl'
        subst hl'
        exact (Ledger.Exchanged.refl l).congr (by simp [hg]) (by simp [hg])

theorem exchanged_attempt_apply {record : Record} {rules : List Rule} (hf : f.All Ledger.Neat)
    (hplaced : record.Placed) (hok : (attempt f group (·.step (.apply record rules))).1 = 0) :
    Exchanged (fun g a => g = group ∧ a = ⟨record, rules⟩)
      (fun g r => g = group ∧ r.name = record.name) f
      (attempt f group (·.step (.apply record rules))).2 :=
  exchanged_attempt (fun s hsite hok => by
    obtain ⟨htidy, happlies⟩ := hf group s.ledger (Fleet.ledger?_of_site? hsite)
    exact Site.exchanged_apply htidy
      (fun d a ha hname => (happlies d a ha).direction_eq hplaced hname) hok) hok

theorem exchanged_attempt_take {o : Operation} (ho : ∀ record rules, o ≠ .apply record rules)
    (hok : (attempt f group (·.step o)).1 = 0) :
    Exchanged (fun _ _ => False) (fun g r => g = group ∧ o.takes r.name = true) f
      (attempt f group (·.step o)).2 :=
  (exchanged_attempt (fun _ _ hok => Site.exchanged_take ho hok) hok).congr (by simp)
    fun _ _ _ _ _ _ => Iff.rfl

def ToldApart (records : List Record) : Prop :=
  ∀ r ∈ records, ∀ r' ∈ records, r.name = r'.name → r = r'

theorem exchanged_applyEach {records : List Record} (hplaced : ∀ r ∈ records, r.Placed)
    (htold : ToldApart records) {n : Nat} (hf : f.All Ledger.Neat)
    (hok : (applyEach group (resolveAll resolver records) n f).1 = 0) :
    n = 0 ∧ Exchanged
      (fun g a => g = group ∧ a.record ∈ records ∧ resolver.resolve a.record = .ok a.rules)
      (fun g r => g = group ∧ r.name ∈ records.map (·.name)) f
      (applyEach group (resolveAll resolver records) n f).2 := by
  induction records generalizing n f with
  | nil => exact ⟨hok, (Exchanged.refl f).congr (by simp) (by simp)⟩
  | cons record rest ih =>
    obtain ⟨hrecord, hrest⟩ := List.forall_mem_cons.1 hplaced
    have htold' : ToldApart rest := fun r hr r' hr' =>
      htold r (List.mem_cons_of_mem _ hr) r' (List.mem_cons_of_mem _ hr')
    have hresolve : resolveAll resolver (record :: rest) =
        (record, resolver.resolve record) :: resolveAll resolver rest := rfl
    rw [hresolve] at hok ⊢
    cases hrules : resolver.resolve record with
    | error e =>
      -- a record that does not resolve counts as a failure
      rw [hrules] at hok
      exact absurd (ih hrest htold' hf hok).1 (Nat.succ_ne_zero n)
    | ok rules =>
      rw [hrules] at hok
      have hneat := all_attempt Ledger.Neat.invariant group hf hrecord rules
      obtain ⟨hcount, hlater⟩ := ih hrest htold' hneat hok
      obtain ⟨hn, hdone⟩ := Nat.add_eq_zero_iff.1 hcount
      refine ⟨hn, ((exchanged_attempt_apply hf hrecord hdone).trans hlater).congr
        (fun g _ _ a => ?_) fun g l _ d a _ => ?_⟩
      · constructor
        · rintro (⟨rfl, ha, hresolved⟩ | ⟨⟨rfl, rfl⟩, -⟩)
          · exact ⟨rfl, List.mem_cons_of_mem _ ha, hresolved⟩
          · exact ⟨rfl, List.mem_cons_self, hrules⟩
        · rintro ⟨rfl, ha, hresolved⟩
          rcases List.mem_cons.1 ha with heq | ha
          · -- the first record stays, unless it is repeated and so put in again
            by_cases hagain : record ∈ rest
            · exact .inl ⟨rfl, heq ▸ hagain, hresolved⟩
            · have ha : a = ⟨record, rules⟩ := by
                obtain ⟨r, rs⟩ := a
                obtain rfl : r = record := heq
                rw [hrules, Except.ok.injEq] at hresolved
                rw [hresolved]
              refine .inr ⟨⟨rfl, ha⟩, fun ⟨_, hname⟩ => hagain ?_⟩
              obtain ⟨r, hr, hname⟩ := List.mem_map.1 hname
              rw [heq] at hname
              rwa [← htold r (List.mem_cons_of_mem _ hr) record List.mem_cons_self hname]
          · exact .inl ⟨rfl, ha, hresolved⟩
      · rw [List.map_cons, List.mem_cons, and_or_left]

theorem exchanged_ceaseEach {records : List Record} {n : Nat}
    (hok : (ceaseEach group records n f).1 = 0) :
    n = 0 ∧ Exchanged (fun _ _ => False)
      (fun g r => g = group ∧ r.name ∈ records.map (·.name)) f
      (ceaseEach group records n f).2 := by
  induction records generalizing n f with
  | nil => exact ⟨hok, (Exchanged.refl f).congr (by simp) (by simp)⟩
  | cons record rest ih =>
    obtain ⟨hcount, hlater⟩ := ih hok
    obtain ⟨hn, hdone⟩ := Nat.add_eq_zero_iff.1 hcount
    have hfirst := exchanged_attempt_take (o := .cease record.name) (by simp) hdone
    refine ⟨hn, (hfirst.trans hlater).congr (by simp) fun g l _ d a _ => ?_⟩
    rw [Operation.takes, beq_iff_eq, List.map_cons, List.mem_cons, and_or_left]

/-- After a policy was removed with success, no record with a name of it
applies. -/
theorem exchanged_removeFrom {dialect : Dialect} {parent : String}
    (hok : (removeFrom dialect parent group f).1 = 0) :
    Exchanged (fun _ _ => False)
      (fun g r => g = group ∧ Record.belongsTo dialect parent r.name = true) f
      (removeFrom dialect parent group f).2 := by
  have hsame (h : ∀ l, f.ledger? group = some l → ∀ d, ∀ a ∈ l.applied.get d,
      Record.belongsTo dialect parent a.record.name = false) : Exchanged (fun _ _ => False)
        (fun g r => g = group ∧ Record.belongsTo dialect parent r.name = true) f f := by
    refine (Exchanged.refl f).congr (by simp) fun g l hl d a ha => ?_
    rw [false_iff]
    rintro ⟨rfl, hname⟩
    rw [h l hl d a ha] at hname
    cases hname
  unfold removeFrom at hok ⊢
  split at hok
  · rename_i hnone
    refine hsame fun l hl => ?_
    obtain ⟨s, hsite, -⟩ := Fleet.site?_of_ledger? hl
    rw [hnone] at hsite
    cases hsite
  · rename_i s hsite
    split at hok <;> rename_i himplements
    · rw [if_pos himplements]
      exact exchanged_attempt_take (o := .ceaseParent dialect parent) (by simp) hok
    · rw [if_neg himplements]
      refine hsame fun l hl d a ha => ?_
      rw [Fleet.ledger?_of_site? hsite, Option.some.injEq] at hl
      subst hl
      by_contra hname
      rw [Bool.not_eq_false] at hname
      exact not_knows_of_not_implements (by simpa using himplements) hname (.inr ⟨d, a, ha, rfl⟩)

/-! ### Policies -/

theorem mem_outdated {dialect : Dialect} {parent : String} {names : List String} {r : Record} :
    r ∈ outdated f group dialect parent names ↔
      ∃ l, f.ledger? group = some l ∧ (∃ d, ∃ a ∈ l.applied.get d, a.record = r) ∧
        r.PartOf dialect parent ∧ r.name ∉ names := by
  unfold outdated
  split
  · rename_i hnone
    refine iff_of_false (by simp) fun ⟨l, hl, _⟩ => ?_
    obtain ⟨s, hsite, -⟩ := Fleet.site?_of_ledger? hl
    rw [hnone] at hsite
    cases hsite
  · rename_i s hsite
    simp [Fleet.ledger?_of_site? hsite, Deployed.mem_appliedRecords, Record.PartOf, and_assoc]

theorem exchanged_deployTo {dialect : Dialect} {parent : String} {records : List Record}
    (hplaced : ∀ r ∈ records, r.Placed) (htold : ToldApart records)
    (hpart : ∀ r ∈ records, r.PartOf dialect parent) (hf : f.All Ledger.Neat)
    (hok : (deployTo resolver dialect parent records group f).1 = 0) :
    Exchanged
      (fun g a => g = group ∧ covered records group = true ∧ a.record ∈ records ∧
        resolver.resolve a.record = .ok a.rules)
      (fun g r => g = group ∧ if covered records group then r.PartOf dialect parent
        else Record.belongsTo dialect parent r.name = true) f
      (deployTo resolver dialect parent records group f).2 := by
  rw [deployTo_eq] at hok ⊢
  split at hok <;> rename_i hcovered
  · simp only [if_pos hcovered]
    dsimp only at hok
    obtain ⟨hcount, hceased⟩ := exchanged_ceaseEach hok
    obtain ⟨-, happlied⟩ := exchanged_applyEach hplaced htold hf hcount
    refine (happlied.trans hceased).congr (fun g _ _ a => ?_) fun g l hl d a ha => ?_
    · rw [false_or]
      constructor
      · rintro ⟨⟨rfl, ha, hresolved⟩, -⟩
        exact ⟨rfl, hcovered, ha, hresolved⟩
      · rintro ⟨rfl, -, ha, hresolved⟩
        refine ⟨⟨rfl, ha, hresolved⟩, fun ⟨_, hname⟩ => ?_⟩
        obtain ⟨r, hr, hname⟩ := List.mem_map.1 hname
        obtain ⟨l, -, -, -, hmissing⟩ := mem_outdated.1 hr
        exact hmissing (hname ▸ List.mem_map_of_mem ha)
    · by_cases hg : g = group
      · subst hg
        have hrecord := (hf g l hl).2 d a ha
        simp only [true_and]
        constructor
        · rintro (hname | hname) <;> obtain ⟨r, hr, hname⟩ := List.mem_map.1 hname
          · exact ((hplaced r hr).partOf_iff_of_name hrecord hname).1 (hpart r hr)
          · obtain ⟨l₁, hl₁, ⟨d', a', ha', rfl⟩, hpart, -⟩ := mem_outdated.1 hr
            have hneat := all_applyEach Ledger.Neat.invariant resolver hplaced g 0 hf g l₁ hl₁
            exact ((hneat.2 d' a' ha').partOf_iff_of_name hrecord hname).1 hpart
        · intro hpart
          by_contra hkept
          rw [not_or] at hkept
          have hsome := happlied.groups g
          rw [hl] at hsome
          obtain ⟨l₁, hl₁⟩ := Option.isSome_iff_exists.1 hsome
          -- the record is not replaced, so it still applies and is outdated
          have ha₁ := (happlied.ledgers g l l₁ hl hl₁ d a).2 (.inr ⟨ha, fun h => hkept.1 h.2⟩)
          exact hkept.2 (List.mem_map_of_mem
            (mem_outdated.2 ⟨l₁, hl₁, ⟨d, a, ha₁, rfl⟩, hpart, hkept.1⟩))
      · simp [hg]
  · simp only [if_neg hcovered]
    exact (exchanged_removeFrom hok).congr (by simp [hcovered]) fun _ _ _ _ _ _ => Iff.rfl

/-- What is exchanged on one firewall after another is exchanged on all of
them. -/
theorem exchanged_forEach {op : PodGroup → Fleet → Nat × Fleet} {into : PodGroup → Applied → Prop}
    {out : PodGroup → Record → Prop} (hkeep : ∀ group f, f.All Ledger.Neat →
      (op group f).2.All Ledger.Neat)
    (hop : ∀ group f, f.All Ledger.Neat → (op group f).1 = 0 →
      Exchanged (fun g a => g = group ∧ into g a) (fun g r => g = group ∧ out g r) f (op group f).2)
    {groups : List PodGroup} {n : Nat} (hnodup : groups.Nodup) (hf : f.All Ledger.Neat)
    (hok : (forEach op groups n f).1 = 0) :
    n = 0 ∧ Exchanged (fun g a => g ∈ groups ∧ into g a) (fun g r => g ∈ groups ∧ out g r) f
      (forEach op groups n f).2 := by
  induction groups generalizing n f with
  | nil => exact ⟨hok, (Exchanged.refl f).congr (by simp) (by simp)⟩
  | cons first rest ih =>
    obtain ⟨hfirst, hrest⟩ := List.nodup_cons.1 hnodup
    obtain ⟨hcount, hlater⟩ := ih hrest (hkeep first f hf) hok
    obtain ⟨hn, hdone⟩ := Nat.add_eq_zero_iff.1 hcount
    refine ⟨hn, ((hop first f hf hdone).trans hlater).congr (fun g _ _ a => ?_) fun g _ _ _ a _ => ?_⟩
    · constructor
      · rintro (⟨hg, ha⟩ | ⟨⟨rfl, ha⟩, -⟩)
        · exact ⟨List.mem_cons_of_mem _ hg, ha⟩
        · exact ⟨List.mem_cons_self, ha⟩
      · rintro ⟨hg, ha⟩
        rcases List.mem_cons.1 hg with rfl | hg
        · exact .inr ⟨⟨rfl, ha⟩, fun h => hfirst h.1⟩
        · exact .inl ⟨hg, ha⟩
    · rw [List.mem_cons, or_and_right]

variable {p : Policy} {key : ObjectKey}

/-- The records that a deployment of a policy takes off the firewall of a group:
those of all its versions or, if it asks for nothing there, all those with names
that start like them. -/
def Supersedes (m : Manager) (p : Policy) (group : PodGroup) (r : Record) : Prop :=
  if m.wanted p group = [] then
    Record.belongsTo p.dialect (p.metadata.name.getD "") r.name = true
  else r.PartOf p.dialect (p.metadata.name.getD "")

theorem supersedes_of_partOf {r : Record} (hr : r.Placed)
    (hpart : r.PartOf p.dialect (p.metadata.name.getD "")) : m.Supersedes p group r := by
  unfold Supersedes
  split
  · exact hr.belongsTo hpart
  · exact hpart

theorem wanted_eq_nil_iff {records : List Record} (hrecords : m.records p = .ok (some records)) :
    m.wanted p group = [] ↔ covered records group = false := by
  constructor
  · intro hnone
    by_contra hcovered
    rw [Bool.not_eq_false] at hcovered
    rw [wanted_of_covered hrecords hcovered] at hnone
    rw [hnone] at hcovered
    cases hcovered
  · intro hcovered
    obtain ⟨service, hservice⟩ := records_some hrecords
    obtain ⟨head, -, hof⟩ := Policy.records_ok hservice
    rw [wanted_of_records hrecords, List.filter_eq_nil_iff]
    intro r hr
    cases records with
    | nil => cases hr
    | cons first rest =>
      have hsubject : r.subject = first.subject :=
        (hof r hr).subject.trans (hof first List.mem_cons_self).subject.symm
      rw [hsubject]
      simpa [covered] using hcovered

theorem neat_removeFrom (dialect : Dialect) (parent : String) (group : PodGroup) {f : Fleet}
    (hf : f.All Ledger.Neat) : (removeFrom dialect parent group f).2.All Ledger.Neat := by
  have hsteps : Fleet.Steps (fun _ o => o.Asks Record.Placed) f
      (removeFrom dialect parent group f).2 := steps_removeFrom trivial f
  exact hsteps.all hf Ledger.Neat.invariant fun _ _ h => h

theorem neat_deployTo (resolver : Resolver) (dialect : Dialect) (parent : String)
    {records : List Record} (hplaced : ∀ r ∈ records, r.Placed) (group : PodGroup) {f : Fleet}
    (hf : f.All Ledger.Neat) :
    (deployTo resolver dialect parent records group f).2.All Ledger.Neat :=
  (steps_deployTo resolver dialect parent records group f).all hf Ledger.Neat.invariant
    fun _ o ⟨_, ho⟩ => by
      cases o with
      | apply record rules => exact hplaced record ho
      | cease name => trivial
      | ceaseParent dialect parent => trivial

theorem exchanged_removePolicy (dialect : Dialect) (hf : m.fleet.All Ledger.Neat)
    (hok : (m.removePolicy dialect key).1 = .ok ()) :
    Exchanged (fun _ _ => False)
      (fun g r => g.namespaceName = key.namespaceName ∧
        Record.belongsTo dialect key.name r.name = true)
      m.fleet (m.removePolicy dialect key).2.fleet := by
  have hone (group : PodGroup) (f : Fleet) (_ : f.All Ledger.Neat)
      (hdone : (removeFrom dialect key.name group f).1 = 0) :
      Exchanged (fun g _ => g = group ∧ False)
        (fun g r => g = group ∧ Record.belongsTo dialect key.name r.name = true) f
        (removeFrom dialect key.name group f).2 :=
    (exchanged_removeFrom hdone).congr (by simp) fun _ _ _ _ _ _ => Iff.rfl
  have hremoved := (exchanged_forEach (fun group _ hf => neat_removeFrom dialect key.name group hf)
    hone (nodup_groupsIn m.fleet key.namespaceName) hf (failures_eq_ok.1 hok)).2
  refine hremoved.congr (by simp) fun g l hl d a _ => ?_
  rw [mem_groupsIn, hl]
  simp

/-- On one firewall a deployment puts in the records that the policy asks for
there. -/
theorem exchanged_deployTo_wanted {records : List Record} (hkey : p.key? = some key)
    (hrecords : m.records p = .ok (some records)) (hf : f.All Ledger.Neat)
    (hok : (deployTo m.resolver p.dialect key.name records group f).1 = 0) :
    Exchanged
      (fun g a => g = group ∧ a.record ∈ m.wanted p g ∧ m.resolver.resolve a.record = .ok a.rules)
      (fun g r => g = group ∧ m.Supersedes p g r) f
      (deployTo m.resolver p.dialect key.name records group f).2 := by
  obtain ⟨service, hservice⟩ := records_some hrecords
  obtain ⟨head, hhead, hlisted⟩ := Policy.records_listed hservice
  have hpart : ∀ r ∈ records, r.PartOf p.dialect key.name := by
    intro r hr
    rw [Record.PartOf, (hlisted.isOf hr).parent, hhead.dialect, hhead.name, name_of_key? hkey]
    exact ⟨rfl, rfl⟩
  refine (exchanged_deployTo (fun r hr => (hlisted.isOf hr).placed)
    (fun r hr r' hr' => hlisted.eq_of_name hr hr') hpart hf hok).congr (fun g _ _ a => ?_)
    fun g _ _ _ a _ => ?_
  · refine and_congr_right fun hg => ?_
    subst hg
    cases hcovered : covered records g with
    | false => simp [(wanted_eq_nil_iff hrecords).2 hcovered]
    | true => simp [wanted_of_covered hrecords hcovered]
  · refine and_congr_right fun hg => ?_
    subst hg
    rw [Supersedes, name_of_key? hkey]
    cases hcovered : covered records g with
    | false => simp [(wanted_eq_nil_iff hrecords).2 hcovered]
    | true =>
      have hsome : m.wanted p g ≠ [] := by simp [wanted_eq_nil_iff hrecords, hcovered]
      simp [hsome]

/-- After a policy was deployed with success, the records apply that its present
version asks for, with their rules, and none of its other versions. -/
theorem exchanged_deployPolicy (hkey : p.key? = some key) (hf : m.fleet.All Ledger.Neat)
    (hok : (m.deployPolicy p).1 = .ok ()) :
    Exchanged
      (fun g a => g.namespaceName = key.namespaceName ∧ a.record ∈ m.wanted p g ∧
        m.resolver.resolve a.record = .ok a.rules)
      (fun g r => g.namespaceName = key.namespaceName ∧ m.Supersedes p g r)
      m.fleet (m.deployPolicy p).2.fleet := by
  unfold deployPolicy at hok ⊢
  simp only [hkey] at hok ⊢
  rcases hrecords : m.records p with e | _ | records <;> simp only [hrecords] at hok ⊢
  · cases hok
  · have hnone (g : PodGroup) : m.wanted p g = [] := by rw [wanted, hrecords]
    refine (exchanged_removePolicy p.dialect hf hok).congr (by simp [hnone]) fun g _ _ _ a _ => ?_
    rw [Supersedes, if_pos (hnone g), name_of_key? hkey]
  · obtain ⟨service, hservice⟩ := records_some hrecords
    obtain ⟨head, -, hof⟩ := Policy.records_ok hservice
    have hdeployed := (exchanged_forEach
      (fun group _ hf => neat_deployTo m.resolver p.dialect key.name
        (fun r hr => (hof r hr).placed) group hf)
      (fun _ _ hf hdone => exchanged_deployTo_wanted hkey hrecords hf hdone)
      (nodup_groupsIn m.fleet key.namespaceName) hf (failures_eq_ok.1 hok)).2
    refine hdeployed.congr (fun g l hl a => ?_) fun g l hl d a _ => ?_ <;>
      rw [mem_groupsIn, hl] <;> simp

end Manager

end PodFirewall
