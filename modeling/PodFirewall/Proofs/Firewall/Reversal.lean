import PodFirewall.Proofs.Firewall.Apart
import PodFirewall.Proofs.Firewall.Exactness

/-!
Enforcing rules under a new name and ceasing the name again. The rules are
appended at the end of both layouts and nothing else in the layouts has their
name, so ceasing it takes out just what enforcing put in. This holds wherever
the chains and the ledger follow the same layouts, and they do so in each state
that a firewall can get into, until it is deleted.
-/

namespace PodFirewall

namespace Ledger

/-- What is recorded for a name says whether it has a record, and which. -/
theorem NoneBare.get?_eq {l : Ledger} (h : l.NoneBare) (name : String) :
    l.rules.get? name = (some ⟨l.recorded name .incoming, l.recorded name .outgoing⟩).filter
      fun p => !isBare p := by
  cases hp : l.rules.get? name with
  | none =>
    rw [recorded_eq_nil hp, recorded_eq_nil hp]
    rfl
  | some p =>
    have hthere : (!isBare p) = true := by rw [h name p hp, Bool.not_false]
    rw [recorded_eq hp, recorded_eq hp, Option.filter_some]
    exact (if_pos hthere).symm

/-- Ledgers that follow the same layouts have the same records. -/
theorem Records.rules_eq {l l' : Ledger} {U : PerDirection Layout} (h : l.Records U)
    (h' : l'.Records U) : l.rules = l'.rules := by
  refine OrdMap.ext_get? fun name => ?_
  rw [h.noneBare.get?_eq, h'.noneBare.get?_eq]
  simp only [h.recorded, h'.recorded]

end Ledger

namespace Layout

def extended (U : PerDirection Layout) (name : String) (rules : PerDirection (List Rule)) :
    PerDirection Layout :=
  ⟨U.incoming ++ rules.incoming.map fun r => (some name, r),
    U.outgoing ++ rules.outgoing.map fun r => (some name, r)⟩

theorem get_extended (U : PerDirection Layout) (name : String) (rules : PerDirection (List Rule))
    (d : Direction) : (extended U name rules).get d =
      U.get d ++ (rules.get d).map fun r => (some name, r) := by
  cases d <;> rfl

/-- The entries of a new name are just those at the end. -/
theorem filter_extended {U : PerDirection Layout} {name : String} {d : Direction}
    (hnew : (U.get d).chosen (ofName name) = []) (rules : PerDirection (List Rule)) :
    (((extended U name rules).get d).filter fun e => !e.1.any (· == name)) = U.get d := by
  rw [chosen_eq_nil_iff, List.filter_eq_nil_iff] at hnew
  have hkept : ((U.get d).filter fun e => !e.1.any (· == name)) = U.get d := by
    refine List.filter_eq_self.2 fun e he => ?_
    have hother := hnew e he
    cases hn : e.1 <;> simp_all
  rw [get_extended, List.filter_append, hkept]
  simp [List.filter_map, Function.comp_def]

end Layout

namespace Backend

variable {b : Backend} {name other : String}

/-- A firewall that is gone does not come back by itself. -/
theorem gone_perform (h : b.firewalls.get? name = none) {call : Call} (hcall : call ≠ .create) :
    (b.perform name call).2.firewalls.get? name = none := by
  rcases hp : b.perform name call with ⟨e | ⟨⟨⟩⟩, b'⟩
  · rw [perform_error hp]
    exact h
  · obtain ⟨m, hm, rfl⟩ := perform_ok hp
    cases call with
    | find => exact Except.ok.inj hm ▸ h
    | create => exact absurd rfl hcall
    | destroy | read c | append c rules | delete c id | setDefault c action | commit c =>
      simp only [effect, h] at hm
      cases hm

/-- A deletion that is done leaves no firewall. -/
theorem gone_of_destroy {m : OrdMap String FirewallState} (h : b.effect name .destroy = .ok m) :
    m.get? name = none := by
  cases hfw : b.firewalls.get? name with
  | none =>
    simp only [effect, hfw] at h
    cases h
  | some fw =>
    simp only [effect, hfw, Except.ok.injEq] at h
    rw [← h]
    exact OrdMap.get?_erase_self _ _

theorem perform_delete_ne_ok {b' : Backend} (h : b.firewalls.get? name = none) (c : Chain)
    (id : Nat) : b.perform name (.delete c id) ≠ (.ok (), b') := by
  intro hp
  obtain ⟨m, hm, -⟩ := perform_ok hp
  simp only [effect, h] at hm
  cases hm

/-- Whatever is done from elsewhere is done to one firewall. -/
theorem intervene_cases (b : Backend) (name : String) (call : Call) :
    (b.intervene name call).2 = b ∨
      ∃ m, b.effect name call = .ok m ∧ (b.intervene name call).2 = { b with firewalls := m } := by
  unfold intervene
  dsimp only
  split
  · rename_i m hm
    exact .inr ⟨m, effect_of_outcome hm, rfl⟩
  · exact .inl rfl

end Backend

namespace Site

open Layout (extended)

variable {s : Site} {U : PerDirection Layout} {name : String}
  {rules : PerDirection (List Rule)}

/-! ### The states of a firewall -/

/-- Whether a site came about by the creation of a firewall and by what was
asked of it since, whatever failed, while others worked on other firewalls of
the service or even deleted this one. -/
inductive Lived : Site → Prop where
  | created {s : Site} : s.Created → Lived s
  | obey {s : Site} (command : Command) : Lived s → Lived (s.obey command)
  | destroy {s : Site} : Lived s → Lived s.destroy.2
  | call {s : Site} {other : String} (call : Call) : Lived s → s.name ≠ other →
      Lived { s with backend := (s.backend.perform other call).2 }
  | elsewhere {s : Site} {other : String} (call : Call) : Lived s →
      (s.name = other → call = .destroy) →
      Lived { s with backend := (s.backend.intervene other call).2 }

theorem Lived.obeyAll (h : s.Lived) (commands : List Command) : (s.obeyAll commands).Lived := by
  induction commands generalizing s with
  | nil => exact h
  | cons command rest ih => exact ih (h.obey command)

/-- A firewall that is gone is found missing. -/
theorem gone_checkAlive (h : s.held? = none) :
    ∃ e, s.checkAlive.1 = .error e ∧ s.checkAlive.2.held? = none := by
  have hperform := Backend.gone_perform h (show Call.find ≠ .create from nofun)
  unfold checkAlive
  split <;> rename_i hfind
  · obtain ⟨-, hfound⟩ := Backend.find_ok hfind
    rw [OrdMap.contains, show s.backend.firewalls.get? s.name = none from h] at hfound
    cases hfound
  · obtain ⟨hsame, -⟩ := Backend.find_ok hfind
    exact ⟨_, rfl, by rw [held?, hsame]; exact h⟩
  · refine ⟨_, rfl, ?_⟩
    unfold Backend.find at hfind
    split at hfind
    · cases hfind
    · rename_i hp
      obtain ⟨-, rfl⟩ := Prod.mk.inj hfind
      rwa [hp] at hperform

/-- Nothing is deleted from a firewall that is gone. -/
theorem gone_deleteEach (h : s.held? = none) (d : Direction) (rules : List Rule) (out : Deletion) :
    (deleteEach d rules out s).1.any = out.any ∧ (deleteEach d rules out s).2.held? = none := by
  induction rules generalizing out s with
  | nil => exact ⟨rfl, h⟩
  | cons r rest ih =>
    unfold deleteEach
    split <;> rename_i b hperform
    · have hgone : Site.held? { s with backend := b } = none := by
        rw [Backend.perform_error hperform]
        exact h
      exact ih hgone { out with failed := r :: out.failed }
    · exact absurd hperform (Backend.perform_delete_ne_ok h d.chain r.id)

theorem gone_obey (h : s.held? = none) (command : Command) : (s.obey command).held? = none := by
  obtain ⟨e, hdead, hgone⟩ := gone_checkAlive h
  cases command with
  | operation o =>
    obtain ⟨b, -, ⟨e', hdead', hstep⟩ | ⟨halive, -⟩⟩ := step_cases s o
    · rw [obey, hstep]
      rwa [hdead'] at hgone
    · rw [halive] at hdead
      cases hdead
  | enforce name rules =>
    change (s.enforce name rules).2.held? = none
    unfold enforce
    split <;> rename_i hcheck <;> rw [hcheck] at hdead hgone
    · exact hgone
    · cases hdead
  | remove d rules =>
    obtain ⟨hany, hgone⟩ := gone_deleteEach h d (Rule.sortDown rules) ⟨[], false⟩
    change (s.remove d rules).2.held? = none
    unfold remove
    split
    · exact h
    · split
      rename_i hs
      rw [hs] at hany hgone
      rw [if_neg (by rw [hany]; exact Bool.false_ne_true)]
      exact hgone

/-- A firewall that is in the service as before still follows its layouts. -/
theorem Laid.spared (hU : s.Laid U) {b : Backend}
    (hheld : b.firewalls.get? s.name = s.backend.firewalls.get? s.name) :
    Laid { s with backend := b } U := by
  obtain ⟨fw, hfw, hrules⟩ := hU.holds
  exact ⟨⟨fw, hheld.trans hfw, hrules⟩, hU.records⟩

theorem Lived.laid_or_gone (h : s.Lived) : (∃ U, s.Laid U) ∨ s.held? = none := by
  induction h with
  | created hs => exact .inl ⟨_, hs.laid.1⟩
  | obey command _ ih =>
    rcases ih with ⟨U, hU⟩ | hgone
    · obtain ⟨V, hV, -⟩ := hU.obey command
      exact .inl ⟨V, hV⟩
    · exact .inr (gone_obey hgone command)
  | @destroy s _ ih =>
    unfold Site.destroy
    split <;> rename_i hperform
    · obtain ⟨m, hm, rfl⟩ := Backend.perform_ok hperform
      exact .inr (Backend.gone_of_destroy hm)
    · rw [Backend.perform_error hperform]
      exact ih.imp_left fun ⟨U, hU⟩ => ⟨U, hU.spared rfl⟩
  | @call s other call _ hother ih =>
    have hspares := Backend.closed_spares hother s.backend
      (Eq.refl (s.backend.perform other call)) (.refl _ _)
    exact ih.imp (fun ⟨U, hU⟩ => ⟨U, hU.spared hspares.held⟩) fun hgone => hspares.held.trans hgone
  | @elsewhere s other call _ hother ih =>
    rcases Backend.intervene_cases s.backend other call with hsame | ⟨m, hm, hdone⟩
    · rwa [hsame]
    · rw [hdone]
      by_cases hname : s.name = other
      · obtain rfl := hname
        rw [hother rfl] at hm
        exact .inr (Backend.gone_of_destroy hm)
      · have hheld := Backend.get?_effect_of_ne hname hm
        exact ih.imp (fun ⟨U, hU⟩ => ⟨U, hU.spared hheld⟩) fun hgone => hheld.trans hgone

/-! ### Enforcing and ceasing -/

theorem Laid.enforce_fine (hU : s.Laid U)
    (hfine : (s.enforce name rules).2.backend.failures Call.any =
      s.backend.failures Call.any) :
    (s.enforce name rules).1 = .ok ⟨.ok (), .ok ()⟩ ∧
      (s.enforce name rules).2.Laid (extended U name rules) ∧
      (s.enforce name rules).2.ledger.applied = s.ledger.applied := by
  have hchecked := hU.checkAlive
  have hworked := Worked.checkAlive s
  have halive := failures_checkAlive (show Call.any .find = true from rfl) hU
  rcases hcheck : s.checkAlive with ⟨e | ⟨⟨⟩⟩, s₁⟩ <;> rw [hcheck] at hchecked hworked halive
  · simp only [Site.enforce, hcheck] at hfine
    exact absurd hfine (Nat.ne_of_gt (halive.resolve_left nofun))
  · have hle := hworked.failures_le Call.any
    have hle₁ := (Worked.inject s₁ .incoming rules.incoming).failures_le Call.any
    rcases hin : s₁.inject .incoming rules.incoming with ⟨incoming, s₂⟩
    have hle₂ := (Worked.inject s₂ .outgoing rules.outgoing).failures_le Call.any
    rcases hout : s₂.inject .outgoing rules.outgoing with ⟨outgoing, s₃⟩
    have hledger : s₃.ledger = s₁.ledger := by
      have h := inject_ledger s₁ .incoming rules.incoming
      have h' := inject_ledger s₂ .outgoing rules.outgoing
      rw [hin] at h
      rw [hout] at h'
      exact h'.trans h
    simp only [Site.enforce, hcheck, hin, hout] at hfine hle₁ hle₂ ⊢
    -- a direction that fails would be a call that failed
    rcases incoming with e | added
    · have hlt := failures_inject (fun call => (rfl : Call.any call = true)) hin
      dsimp only at hle
      omega
    rcases outgoing with e | added'
    · have hlt := failures_inject (fun call => (rfl : Call.any call = true)) hout
      dsimp only at hle
      omega
    have hV := Laid.inject_ok (l := s₁.ledger) hchecked hin name
    have hW := hV.inject_ok hout name
    refine ⟨rfl, ?_, ?_⟩
    · rw [hledger]
      exact hW
    · rw [hledger, Ledger.record_applied, Ledger.record_applied]
      exact hworked.applied

theorem Laid.cease_fine (hU : s.Laid U)
    (hfine : (s.cease name).2.backend.failures Call.any = s.backend.failures Call.any) :
    (s.cease name).1 = .ok () ∧
      (∃ V, (s.cease name).2.Laid V ∧
        ∀ d, V.get d = (U.get d).filter fun e => !e.1.any (· == name)) ∧
      (s.cease name).2.ledger.applied = (s.ledger.retire (· == name)).applied := by
  have hchecked := hU.checkAlive
  have halive := failures_checkAlive (show Call.any .find = true from rfl) hU
  change (s.step (.cease name)).2.backend.failures Call.any = _ at hfine
  change (s.step (.cease name)).1 = _ ∧ (∃ V, (s.step (.cease name)).2.Laid V ∧ _) ∧
    (s.step (.cease name)).2.ledger.applied = _
  obtain ⟨b, hb, ⟨e, hdead, hstep⟩ | ⟨hcheck, ⟨record, rules, i, ho, -⟩ | ⟨-, hstep⟩⟩⟩ :=
    step_cases s (.cease name)
  · rw [hdead] at halive
    rw [hstep] at hfine
    exact absurd hfine (Nat.ne_of_gt (halive.resolve_left nofun))
  · cases ho
  · rw [hcheck] at hchecked
    rw [hstep] at hfine ⊢
    have hworkfine := failures_work_of_fine hb hfine
    have hwork := (failures_work_cease (fun _ _ => rfl) { s with backend := b } name).resolve_right
      (Nat.not_lt_of_le (Nat.le_of_eq hworkfine))
    have hset : (Site.work { s with backend := b } (.cease name)).2.updateDefaults.1 = .ok () := by
      have hany (c : Chain) : (∀ a, Call.any (.setDefault c a) = true) ∧
          Call.any (.commit c) = true := ⟨fun _ => rfl, rfl⟩
      refine (failures_updateDefaults hany _).resolve_right fun hlt => ?_
      have hle := hb.failures_le Call.any
      dsimp only [settle] at hfine hle hlt
      omega
    obtain ⟨V, hV, -, hgone⟩ := hchecked.work_cease name
    refine ⟨Outcome.both_eq_ok.2 ⟨hwork, hset⟩, ⟨V, hV.updateDefaults, hgone hwork⟩, ?_⟩
    rw [settle, (tuned_updateDefaults _).applied, applied_work_cease]

/-- A name under which nothing is applied has nothing to be retired. -/
theorem retire_eq_self {l : Ledger} (h : ∀ d, ¬Named l d name) :
    (l.retire (· == name)).applied = l.applied := by
  refine PerDirection.ext_get fun d => ?_
  rw [Ledger.retire, PerDirection.get_map, List.filter_eq_self]
  intro a ha
  simpa using fun hname => h d ⟨a, ha, hname⟩

/-- In every state of a firewall that is in the service, rules that are enforced
under a name that is neither recorded nor applied get the next numbers in the
chains and are recorded under the name. Ceasing the name leaves the chains, the
records and the applied records as they were before, if no call fails. -/
theorem cease_enforce_restores (hs : s.Lived)
    (hthere : s.backend.firewalls.contains s.name = true)
    (hrecorded : s.ledger.rules.get? name = none) (happlied : ∀ d, ¬Named s.ledger d name)
    (hfine : ((s.enforce name rules).2.cease name).2.backend.failures Call.any =
      s.backend.failures Call.any) :
    let between := (s.enforce name rules).2
    let after := (between.cease name).2
    (s.enforce name rules).1 = .ok ⟨.ok (), .ok ()⟩ ∧
    (∀ d, between.ledger.recorded name d =
      Rule.numberFrom (s.chain d).length (rules.get d)) ∧
    (∀ d, between.chain d =
      s.chain d ++ Rule.numberFrom (s.chain d).length (rules.get d)) ∧
    (between.cease name).1 = .ok () ∧ (∀ d, after.chain d = s.chain d) ∧
    after.ledger.rules = s.ledger.rules ∧ after.ledger.applied = s.ledger.applied := by
  intro between after
  obtain ⟨U, hU⟩ : ∃ U, s.Laid U := hs.laid_or_gone.resolve_right fun hgone => by
    rw [OrdMap.contains, show s.backend.firewalls.get? s.name = none from hgone] at hthere
    cases hthere
  have hclosed : Backend.Closed s.name fun b => s.backend.failures Call.any ≤ b.failures Call.any :=
    Backend.closed_failures_le _ _ _
  obtain ⟨-, hle⟩ := hclosed.stable.enforce ⟨rfl, Nat.le_refl _⟩ name rules
  have hle' := failures_le_step between (.cease name) Call.any
  have hmid : between.backend.failures Call.any = s.backend.failures Call.any :=
    Nat.le_antisymm (Nat.le_trans hle' (Nat.le_of_eq hfine)) hle
  obtain ⟨henforced, hV, hsame⟩ := hU.enforce_fine hmid
  obtain ⟨hceased, ⟨W, hW, hfiltered⟩, hretired⟩ := hV.cease_fine (hfine.trans hmid.symm)
  -- the name had no entries before, so just what was enforced is ceased
  have hnew (d : Direction) : (U.get d).chosen (Layout.ofName name) = [] := by
    rw [← hU.records.recorded, Ledger.recorded_eq_nil hrecorded]
  obtain rfl : W = U := PerDirection.ext_get fun d => by
    rw [hfiltered, Layout.filter_extended (hnew d)]
  have hchain (d : Direction) : s.chain d = (W.get d).rules := chain_eq hU.holds d
  refine ⟨henforced, fun d => ?_, fun d => ?_, hceased, fun d => ?_,
    hW.records.rules_eq hU.records, ?_⟩
  · rw [hV.records.recorded, Layout.get_extended, Layout.chosen_append, hnew, if_pos rfl, hchain,
      Layout.length_rules, List.nil_append]
  · rw [chain_eq hV.holds, Layout.get_extended, Layout.rules_append, hchain, Layout.length_rules]
  · rw [chain_eq hW.holds, hchain]
  · have hother : ∀ d, ¬Named between.ledger d name := by
      intro d
      rw [Named, hsame]
      exact happlied d
    exact hretired.trans ((retire_eq_self hother).trans hsame)

/-- Two names have rules, one of which could not be removed, since the fifteenth
call was lost. Rules of a third name come behind them and go again. -/
theorem cease_enforce_restores_of_leftovers :
    let s₀ := newborn { Backend.empty with
      faults := fun n _ _ => if n = 14 then some (.lost "") else none }
    let s := s₀.obeyAll [.enforce "a" ⟨[Rule.blank, Rule.blank], []⟩,
      .enforce "b" ⟨[Rule.blank], []⟩, .remove .incoming [Rule.blank, { Rule.blank with id := 1 }]]
    let rules : PerDirection (List Rule) := ⟨[Rule.blank, Rule.blank], [Rule.blank]⟩
    s.Lived ∧ s.backend.firewalls.contains s.name = true ∧ s.ledger.rules.get? "c" = none ∧
      (∀ d, ¬Named s.ledger d "c") ∧
      ((s.enforce "c" rules).2.cease "c").2.backend.failures Call.any =
        s.backend.failures Call.any ∧
      (s.enforce "c" rules).2.ledger.recorded "c" .incoming =
        [{ Rule.blank with id := 2 }, { Rule.blank with id := 3 }] ∧
      ((s.enforce "c" rules).2.cease "c").2.chain .incoming =
        [Rule.blank, { Rule.blank with id := 1 }] := by
  intro s₀ s rules
  have hs₀ : s₀.Created :=
    newborn_created (.start fun n _ _ => if n = 14 then some (.lost "") else none) rfl
  have hs : s.Lived := (Lived.created hs₀).obeyAll _
  have hthere : s.backend.firewalls.contains s.name = true := by decide
  have hrecorded : s.ledger.rules.get? "c" = none := by decide
  have hnone : s.ledger.applied = ⟨[], []⟩ := by decide
  have happlied (d : Direction) : ¬Named s.ledger d "c" := by
    rw [Named, hnone]
    rintro ⟨a, ha, -⟩
    cases d <;> cases ha
  have hfine : ((s.enforce "c" rules).2.cease "c").2.backend.failures Call.any =
      s.backend.failures Call.any := by decide
  have hchain : s.chain .incoming = [Rule.blank, { Rule.blank with id := 1 }] := by decide
  obtain ⟨-, hbetween, -, -, hafter, -, -⟩ :=
    cease_enforce_restores hs hthere hrecorded happlied hfine
  refine ⟨hs, hthere, hrecorded, happlied, hfine, ?_, (hafter .incoming).trans hchain⟩
  rw [hbetween .incoming, hchain]
  rfl

end Site

end PodFirewall
