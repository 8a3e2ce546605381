import Mathlib.Data.List.Basic
import PodFirewall.Proofs.Firewall.Creation

/-!
Default actions and what the ledger believes of them. A default action is set by
one call and committed by the next; only if both are done does the ledger learn
of it. So the ledger is right about a default action exactly if the last setting
of it was followed by a commit that was done. An operation that sets default
actions trusts the ledger, and one that only takes rules of a record does not
look at them at all.
-/

namespace PodFirewall

namespace LogEntry

def sets (name : String) (c : Chain) (e : LogEntry) : Bool :=
  e.done && e.firewall == name &&
    match e.call with
    | .setDefault c' _ => c' == c
    | _ => false

def commits (name : String) (c : Chain) (e : LogEntry) : Bool :=
  e.done && e.firewall == name && e.call == .commit c

theorem sets_of_not_setsDefault {name : String} {c : Chain} {e : LogEntry}
    (h : e.call.setsDefault = false) : e.sets name c = false := by
  obtain ⟨firewall, call, done⟩ := e
  cases call <;> simp_all [sets, Call.setsDefault]

end LogEntry

namespace Site

def standing (s : Site) (d : Direction) : Option RuleAction :=
  s.held?.bind fun fw => (fw.get d.chain).defaultAction

def sinceSet (s : Site) (d : Direction) : List LogEntry :=
  s.backend.log.takeWhile fun e => !e.sets s.name d.chain

/-- Whether the call that followed the last setting of a default action was a
commit that was done. -/
def Settled (s : Site) (d : Direction) : Prop :=
  ∃ e, (s.sinceSet d).getLast? = some e ∧ e.commits s.name d.chain = true

/-- Whether the ledger takes the default action of a direction for what it should
be. -/
def Remembered (s : Site) (d : Direction) : Prop :=
  s.ledger.defaults.get d = some (due s.ledger d)

theorem due_eq (l : Ledger) (d : Direction) :
    due l d = if (l.applied.get d).isEmpty then .forward else .drop := by
  cases d <;> cases h : (l.applied.get .incoming).isEmpty <;>
    cases h' : (l.applied.get .outgoing).isEmpty <;>
      simp [due, defaultAction, Ledger.restricted, Direction.all, h, h']

theorem due_congr {l l' : Ledger} (h : l'.applied = l.applied) (d : Direction) :
    due l' d = due l d := by rw [due_eq, due_eq, h]

/-- Whether the ledger takes one default action for granted while another one
stands, and is right about it just if it was settled. -/
structure Believes (s : Site) (d : Direction) (told stands : RuleAction) : Prop where
  belief : s.ledger.defaults.get d = some told
  truth : s.standing d = some stands
  since : s.sinceSet d ≠ []
  settled : s.Settled d ↔ stands = told

namespace Believes

variable {s s' : Site} {d : Direction} {told stands : RuleAction}

/-- Calls that leave a default action alone do not touch what is believed of
it. -/
theorem extend (h : s.Believes d told stands) (hname : s'.name = s.name)
    (hdefaults : s'.ledger.defaults.get d = s.ledger.defaults.get d)
    (hstanding : s'.standing d = s.standing d)
    (hlog : ∃ new, s'.backend.log = new ++ s.backend.log ∧
      ∀ e ∈ new, e.sets s.name d.chain = false) : s'.Believes d told stands := by
  obtain ⟨new, hnew, hsets⟩ := hlog
  have hsince : s'.sinceSet d = new ++ s.sinceSet d := by
    -- new calls stand in front, so the call that followed the last setting is the same
    rw [sinceSet, hnew, hname, List.takeWhile_append_of_pos fun e he => by simp [hsets e he]]
    rfl
  refine ⟨hdefaults.trans h.belief, hstanding.trans h.truth, ?_, ?_⟩
  · rw [hsince]
    exact List.append_ne_nil_of_right_ne_nil _ h.since
  · rw [← h.settled, Settled, Settled, hsince, hname, List.getLast?_append_of_ne_nil _ h.since]

theorem worked (h : s.Believes d told stands) (hs : Worked s s') : s'.Believes d told stands := by
  refine h.extend hs.name (by rw [hs.defaults]) ?_ ?_
  · obtain ⟨fw, hfw, -⟩ := Option.bind_eq_some_iff.1 h.truth
    obtain ⟨fw', hfw', hsame⟩ := hs.held fw hfw
    rw [standing, standing, hfw, hfw', Option.bind_some, Option.bind_some, hsame]
  · obtain ⟨new, hnew, hsets⟩ := hs.log
    exact ⟨new, hnew, fun e he => LogEntry.sets_of_not_setsDefault (hsets e he)⟩

theorem of_applied (h : s.Believes d told stands) (applied : PerDirection (List Applied)) :
    Believes { s with ledger := { s.ledger with applied := applied } } d told stands :=
  ⟨h.belief, h.truth, h.since, h.settled⟩

/-- A call that does not set the default action of a direction. -/
theorem call (h : s.Believes d told stands) {call : Call} {r : Except BackendError Unit}
    {b : Backend} (hperform : s.backend.perform s.name call = (r, b)) (hdestroy : call ≠ .destroy)
    (hother : ∀ c a, call = .setDefault c a → d.chain ≠ c) :
    Believes { s with backend := b } d told stands := by
  obtain ⟨fw, hfw, hdefault⟩ := Option.bind_eq_some_iff.1 h.truth
  rcases Backend.perform_cases hfw hdestroy with ⟨e, he⟩ | ⟨fw', b', hb', hchange, hfw', hlog⟩
  · rw [he, Prod.mk.injEq] at hperform
    obtain ⟨-, rfl⟩ := hperform
    refine h.extend rfl rfl rfl ⟨[⟨s.name, call, false⟩], rfl, ?_⟩
    simp [LogEntry.sets]
  · rw [hb', Prod.mk.injEq] at hperform
    obtain ⟨-, rfl⟩ := hperform
    have hsame : (fw'.get d.chain).defaultAction = (fw.get d.chain).defaultAction := by
      cases hset : call.setsDefault with
      | false => exact Backend.change_defaultAction hchange hset d.chain
      | true =>
        cases call <;> try cases hset
        rename_i c a
        rw [(Backend.change_setDefault hchange).2 _ (hother c a rfl)]
    refine h.extend rfl rfl ?_ ⟨[⟨s.name, call, true⟩], hlog, ?_⟩
    · have hheld : held? { s with backend := b' } = some fw' := hfw'
      rw [standing, standing, hheld, hfw, Option.bind_some, Option.bind_some, hsame]
    · intro e he
      obtain rfl := List.mem_singleton.1 he
      cases call <;> simp [LogEntry.sets]
      rename_i c a
      exact fun hc => hother c a rfl hc.symm

theorem failed (h : s.Believes d told stands) {call : Call} {e : BackendError} {b : Backend}
    (hperform : s.backend.perform s.name call = (.error e, b)) :
    Believes { s with backend := b } d told stands := by
  rw [Backend.perform_error hperform]
  refine h.extend rfl rfl rfl ⟨[⟨s.name, call, false⟩], rfl, ?_⟩
  simp [LogEntry.sets]

end Believes

/-- After a default action was set it stands, whether the commit was done or
not. -/
theorem believes_set {s s' : Site} {d : Direction} {told a : RuleAction}
    {r : Except BackendError Unit} {b : Backend} (hheld : s.held?.isSome = true)
    (hset : s.backend.perform s.name (.setDefault d.chain a) = (.ok (), b))
    (hcommit : b.perform s.name (.commit d.chain) = (r, s'.backend)) (hname : s'.name = s.name)
    (hbelief : s'.ledger.defaults.get d = some told) (hr : r = .ok () ↔ a = told) :
    s'.Believes d told a := by
  obtain ⟨fw, hfw⟩ := Option.isSome_iff_exists.1 hheld
  rcases Backend.perform_cases hfw (show Call.setDefault d.chain a ≠ .destroy from nofun) with
    ⟨e, he⟩ | ⟨fw₁, b₁, hb₁, hchange, hfw₁, hlog₁⟩
  · rw [he] at hset
    cases hset
  rw [hb₁, Prod.mk.injEq] at hset
  obtain ⟨-, rfl⟩ := hset
  have hdefault := (Backend.change_setDefault hchange).1
  -- the commit is all that comes after the setting
  have hsince (done : Bool)
      (hlog : s'.backend.log = ⟨s.name, .commit d.chain, done⟩ :: b₁.log) :
      s'.sinceSet d = [⟨s.name, .commit d.chain, done⟩] := by
    rw [sinceSet, hlog, hlog₁, hname, List.takeWhile_cons_of_pos (by simp [LogEntry.sets]),
      List.takeWhile_cons_of_neg (by simp [LogEntry.sets])]
  rcases Backend.perform_cases hfw₁ (show Call.commit d.chain ≠ .destroy from nofun) with
    ⟨e, he⟩ | ⟨fw₂, b₂, hb₂, hchange₂, hfw₂, hlog₂⟩
  · rw [he, Prod.mk.injEq] at hcommit
    obtain ⟨rfl, hbackend⟩ := hcommit
    have hlog := hsince false (by rw [← hbackend])
    have hheld' : s'.held? = some fw₁ := by rw [held?, ← hbackend, hname, hfw₁]
    refine ⟨hbelief, ?_, by simp [hlog], ?_⟩
    · rw [standing, hheld', Option.bind_some, hdefault]
    · rw [← hr]
      simp [Settled, hlog, LogEntry.commits]
  · rw [hb₂, Prod.mk.injEq] at hcommit
    obtain ⟨rfl, hbackend⟩ := hcommit
    have hlog := hsince true (by rw [← hbackend, hlog₂])
    have hheld' : s'.held? = some fw₂ := by rw [held?, ← hbackend, hname, hfw₂]
    refine ⟨hbelief, ?_, by simp [hlog], ?_⟩
    · rw [standing, hheld', Option.bind_some, Backend.change_defaultAction hchange₂ rfl, hdefault]
    · rw [← hr]
      simp [Settled, hlog, LogEntry.commits, hname]

namespace Believes

variable {s s' : Site} {d : Direction} {told stands : RuleAction}

theorem held (h : s.Believes d told stands) : s.held?.isSome = true := by
  obtain ⟨fw, hfw, -⟩ := Option.bind_eq_some_iff.1 h.truth
  rw [hfw]
  rfl

theorem updateDefault_of_ne (h : s.Believes d told stands) {d' : Direction} (hd : d ≠ d') :
    (s.updateDefault d').2.Believes d told stands := by
  have hchain (c : Chain) (a : RuleAction)
      (hcall : Call.setDefault d'.chain (due s.ledger d') = .setDefault c a) : d.chain ≠ c := by
    cases hcall
    exact Direction.chain_ne hd
  rcases updateDefault_cases s d' with ⟨-, hs⟩ | ⟨-, ⟨e, b, hset, hs⟩ | ⟨b, hset, hcommit⟩⟩
  · rw [hs]
    exact h
  · rw [hs]
    exact h.failed hset
  · have hb := h.call hset nofun hchain
    rcases hcommit with ⟨e, b', hcommit, hs⟩ | ⟨b', hcommit, hs⟩
    · rw [hs]
      exact hb.failed hcommit
    · rw [hs]
      have hb' := hb.call (s := { s with backend := b }) hcommit nofun nofun
      refine hb'.extend rfl ?_ rfl ⟨[], rfl, by simp⟩
      dsimp only
      rw [PerDirection.get_set_of_ne _ _ hd]

/-- An update of a default action that succeeds makes the ledger believe in what
is due. -/
theorem updateDefault (h : s.Believes d told stands) :
    ∃ told' stands', (s.updateDefault d).2.Believes d told' stands' ∧
      ((s.updateDefault d).1 = .ok () →
        told' = due s.ledger d ∧ (stands = told → stands' = told')) := by
  rcases updateDefault_cases s d with
    ⟨hknown, hs⟩ | ⟨hnew, ⟨e, b, hset, hs⟩ | ⟨b, hset, ⟨e, b', hcommit, hs⟩ | ⟨b', hcommit, hs⟩⟩⟩
  · rw [hs]
    rw [h.belief, Option.some.injEq] at hknown
    exact ⟨told, stands, h, fun _ => ⟨hknown, id⟩⟩
  · rw [hs]
    exact ⟨told, stands, h.failed hset, nofun⟩
  · rw [hs]
    refine ⟨told, due s.ledger d, ?_, nofun⟩
    -- the action is set but not committed: it stands, and the ledger knows nothing of it
    have hne : due s.ledger d ≠ told := fun heq => hnew (by rw [h.belief, heq])
    exact believes_set h.held hset hcommit rfl h.belief ⟨nofun, fun heq => absurd heq hne⟩
  · rw [hs]
    refine ⟨due s.ledger d, due s.ledger d, ?_, fun _ => ⟨rfl, fun _ => rfl⟩⟩
    exact believes_set h.held hset hcommit rfl (by simp) ⟨fun _ => rfl, fun _ => rfl⟩

theorem updateDefaults (h : s.Believes d told stands) :
    ∃ told' stands', s.updateDefaults.2.Believes d told' stands' ∧
      (s.updateDefaults.1 = .ok () →
        told' = due s.ledger d ∧ (stands = told → stands' = told')) := by
  cases d with
  | incoming =>
    obtain ⟨told', stands', h', hok⟩ := h.updateDefault
    exact ⟨told', stands', h'.updateDefault_of_ne nofun, fun hboth =>
      hok (Outcome.later_eq_ok.1 hboth).1⟩
  | outgoing =>
    have hfirst := h.updateDefault_of_ne (show Direction.outgoing ≠ .incoming from nofun)
    obtain ⟨told', stands', h', hok⟩ := hfirst.updateDefault
    rw [due_congr (tuned_updateDefault s .incoming).applied] at hok
    exact ⟨told', stands', h', fun hboth => hok (Outcome.later_eq_ok.1 hboth).2⟩

end Believes

/-! ### Steps and runs -/

theorem isEmpty_set {α : Type} (l : List α) (i : Nat) (a : α) :
    (l.set i a).isEmpty = l.isEmpty := by
  cases l with
  | nil => rfl
  | cons b rest => cases i <;> rfl

theorem due_shrink (s : Site) (i : Nat) (record : Record) (rules : List Rule) (d : Direction) :
    due (s.shrink i record rules).2.ledger d = due s.ledger d := by
  rw [due_congr (worked_shrink s i record rules).applied, due_eq, due_eq]
  by_cases hd : d = record.direction
  · subst hd
    rw [PerDirection.get_modify_self, isEmpty_set]
  · rw [PerDirection.get_modify_of_ne _ _ hd]

/-- After an operation that succeeds the ledger believes in what is due, unless
the operation only took rules of a record. -/
theorem Believes.step {s : Site} {d : Direction} {told stands : RuleAction}
    (h : s.Believes d told stands) (o : Operation) :
    ∃ told' stands', (s.step o).2.Believes d told' stands' ∧
      ((s.step o).1 = .ok () → quiet? s.ledger o = none →
        told' = due (s.step o).2.ledger d) := by
  obtain ⟨b, hb, ⟨e, -, hstep⟩ | ⟨-, ⟨record, rules, i, -, hquiet, hstep⟩ | ⟨-, hstep⟩⟩⟩ :=
    step_cases s o <;> rw [hstep]
  · exact ⟨told, stands, h.worked hb, nofun⟩
  · refine ⟨told, stands, ((h.worked hb).of_applied _).worked (worked_shrink _ i record rules),
      fun _ hnone => ?_⟩
    rw [hquiet] at hnone
    cases hnone
  · obtain ⟨applied, hworked⟩ := worked_work { s with backend := b } o
    obtain ⟨told', stands', h', hok⟩ :=
      (((h.worked hb).of_applied applied).worked hworked).updateDefaults
    refine ⟨told', stands', h', fun hboth _ => ?_⟩
    rw [settle, due_congr (tuned_updateDefaults _).applied]
    exact (hok (Outcome.both_eq_ok.1 hboth).2).1

theorem Believes.run {s : Site} {d : Direction} {told stands : RuleAction}
    (h : s.Believes d told stands) (ops : List Operation) :
    ∃ told' stands', (s.run ops).Believes d told' stands' := by
  induction ops generalizing s told stands with
  | nil => exact ⟨told, stands, h⟩
  | cons o rest ih =>
    obtain ⟨told', stands', h', -⟩ := h.step o
    exact ih h'

theorem Created.believes {s : Site} (hs : s.Created) (d : Direction) :
    s.Believes d .forward .forward ∧ due s.ledger d = .forward := by
  obtain ⟨b, b₀, hb, hprepare, hset, hledger⟩ := hs.cases
  obtain ⟨fw, hfw, -⟩ := Backend.prepare_ok hb.numbered hprepare
  have hbelief (d : Direction) : s.ledger.defaults.get d = some .forward := by
    rw [hledger]
    cases d <;> rfl
  refine ⟨?_, by rw [due_eq, hledger]; cases d <;> rfl⟩
  obtain ⟨b₁, hset₁, hset⟩ := Backend.performAll_cons_ok hset
  obtain ⟨b₂, hcommit₁, hset⟩ := Backend.performAll_cons_ok hset
  obtain ⟨b₃, hset₂, hset⟩ := Backend.performAll_cons_ok hset
  obtain ⟨b₄, hcommit₂, hset⟩ := Backend.performAll_cons_ok hset
  obtain ⟨-, rfl⟩ := Prod.mk.inj hset
  have hout : Believes { s with backend := b₂ } .outgoing .forward .forward :=
    believes_set (s := { s with backend := b₀ }) (by rw [held?, hfw]; rfl) hset₁ hcommit₁ rfl
      (hbelief .outgoing) ⟨fun _ => rfl, fun _ => rfl⟩
  cases d with
  | outgoing =>
    have h₃ := hout.call hset₂ (by simp) fun c a hcall => by
      cases hcall
      simp [Direction.chain]
    exact h₃.call (s := { s with backend := b₃ }) hcommit₂ (by simp) (by simp)
  | incoming =>
    exact believes_set (s := { s with backend := b₂ }) hout.held hset₂ hcommit₂ rfl
      (hbelief .incoming) ⟨fun _ => rfl, fun _ => rfl⟩

/-- Whether the default action of a direction is what the applied records ask
for. -/
def Agrees (s : Site) (d : Direction) : Prop :=
  s.standing d = some (if (s.ledger.applied.get d).isEmpty then .forward else .drop)

/-- With two actions to choose from, two wrongs make a right: what stands is due
just if the belief is both right and due, or neither. -/
theorem Believes.agrees_iff {s : Site} {d : Direction} {told stands : RuleAction}
    (h : s.Believes d told stands) : s.Agrees d ↔ (s.Settled d ↔ s.Remembered d) := by
  rw [Agrees, ← due_eq, h.truth, h.settled, Remembered, h.belief, Option.some.injEq,
    Option.some.injEq]
  generalize due s.ledger d = a
  cases told <;> cases stands <;> cases a <;> decide

def commitsOrSets : Call → Bool
  | .setDefault _ _ | .commit _ => true
  | _ => false

/-- As long as no such call fails, what is due stands, and is known to. -/
theorem Believes.step_upright {s : Site} {d : Direction}
    (h : s.Believes d (due s.ledger d) (due s.ledger d)) (o : Operation)
    (hfine : (s.step o).2.backend.failures commitsOrSets = s.backend.failures commitsOrSets) :
    (s.step o).2.Believes d (due (s.step o).2.ledger d) (due (s.step o).2.ledger d) := by
  obtain ⟨b, hb, ⟨e, -, hstep⟩ | ⟨-, ⟨record, rules, i, -, -, hstep⟩ | ⟨-, hstep⟩⟩⟩ :=
    step_cases s o <;> rw [hstep] at hfine ⊢
  · exact h.worked hb
  · rw [due_shrink]
    exact ((h.worked hb).of_applied _).worked (worked_shrink _ i record rules)
  · obtain ⟨applied, hworked⟩ := worked_work { s with backend := b } o
    obtain ⟨told', stands', h', hok⟩ :=
      (((h.worked hb).of_applied applied).worked hworked).updateDefaults
    have hkind (c : Chain) :
        (∀ a, commitsOrSets (.setDefault c a) = true) ∧ commitsOrSets (.commit c) = true :=
      ⟨fun _ => rfl, rfl⟩
    have hupdated : (work { s with backend := b } o).2.updateDefaults.1 = .ok () := by
      refine (failures_updateDefaults hkind _).resolve_right fun hlt => ?_
      have hle := hb.failures_le commitsOrSets
      have hle' := failures_le_work { s with backend := b } o commitsOrSets
      rw [settle] at hfine
      dsimp only at hle hle' hfine
      omega
    obtain ⟨rfl, hstands⟩ := hok hupdated
    rw [hstands rfl] at h'
    rw [settle, due_congr (tuned_updateDefaults _).applied]
    exact h'

theorem Believes.run_upright {s : Site} {d : Direction}
    (h : s.Believes d (due s.ledger d) (due s.ledger d)) (ops : List Operation)
    (hfine : (s.run ops).backend.failures commitsOrSets = s.backend.failures commitsOrSets) :
    (s.run ops).Believes d (due (s.run ops).ledger d) (due (s.run ops).ledger d) := by
  induction ops generalizing s with
  | nil => exact h
  | cons o rest ih =>
    have hle := failures_le_step s o commitsOrSets
    have hle' := failures_le_run (s.step o).2 rest commitsOrSets
    have hrun : s.run (o :: rest) = (s.step o).2.run rest := rfl
    rw [hrun] at hfine ⊢
    exact ih (h.step_upright o (by omega)) (by omega)

/-- After an operation that succeeds, a default action is what the applied
records ask for just if the last setting of it was committed. An operation that
only takes rules of a record looks at no default action, so after it this also
depends on whether the ledger believes in what is due. Nothing can be wrong as
long as no default action failed to be set or committed. -/
theorem default_agrees_iff {s₀ : Site} (hs : s₀.Created) (ops : List Operation) (o : Operation)
    {s : Site} (h : (s₀.run ops).step o = (.ok (), s)) (d : Direction) :
    (s.Agrees d ↔
      if (quiet? (s₀.run ops).ledger o).isSome then (s.Settled d ↔ s.Remembered d)
      else s.Settled d) ∧
    (s.backend.failures commitsOrSets = s₀.backend.failures commitsOrSets → s.Agrees d) := by
  obtain ⟨hcreated, hdue⟩ := hs.believes d
  obtain ⟨told, stands, hrun⟩ := hcreated.run ops
  obtain ⟨told', stands', hstep, hdone⟩ := hrun.step o
  rw [h] at hstep hdone
  refine ⟨?_, fun hfine => ?_⟩
  · rw [hstep.agrees_iff]
    cases hquiet : quiet? (s₀.run ops).ledger o with
    | some i => rw [Option.isSome_some, if_pos rfl]
    | none =>
      have hremembered : s.Remembered d := by
        rw [Remembered, hstep.belief, hdone rfl hquiet]
      rw [Option.isSome_none, if_neg nofun, iff_true_right hremembered]
  · rw [← hdue] at hcreated
    have hconcat : s₀.run (ops ++ [o]) = s := by rw [run_concat, h]
    have hupright := hcreated.run_upright (ops ++ [o]) (by rw [hconcat, hfine])
    rw [hconcat] at hupright
    rw [Agrees, hupright.truth, due_eq]

/-- After an apply whose default action could not be set, the apply of another
record sets it. -/
theorem default_agrees_of_retried :
    let s₀ := newborn { Backend.empty with
      faults := fun n _ _ => if n = 10 then some (.lost "") else none }
    let s := s₀.run [.apply (.plain "a" 5 .incoming) [Rule.blank]]
    let o := Operation.apply (.plain "b" 7 .incoming) []
    ¬s.Agrees .incoming ∧ (s.step o).1 = .ok () ∧ (s.step o).2.Agrees .incoming := by
  intro s₀ s o
  have hs : s₀.Created :=
    newborn_created (.start fun n _ _ => if n = 10 then some (.lost "") else none) rfl
  have hok : (s.step o).1 = .ok () := by decide
  have hstep : s.step o = (.ok (), (s.step o).2) := by rw [← hok]
  have hquiet : (quiet? s.ledger o).isSome = false := by decide
  have hiff := (default_agrees_iff hs _ o hstep .incoming).1
  rw [hquiet, if_neg Bool.false_ne_true] at hiff
  have hwrong : ¬s.Agrees .incoming := by
    rw [Agrees]
    decide
  have hsettled : (s.step o).2.Settled .incoming :=
    (Option.any_eq_true _ _).1 (by decide)
  exact ⟨hwrong, hok, hiff.2 hsettled⟩

/-- An apply whose default action cannot be set fails; asked again it finds all
rules in place and succeeds, and the default action is still to forward. -/
theorem default_left_open :
    let s₀ := newborn { Backend.empty with
      faults := fun n _ _ => if n = 10 then some (.lost "") else none }
    let o := Operation.apply (.plain "a" 5 .incoming) [Rule.blank]
    let s := s₀.run [o]
    s₀.Created ∧ (s₀.step o).1 ≠ .ok () ∧ (s.step o).1 = .ok () ∧
      (s.step o).2.ledger.applied.get .incoming ≠ [] ∧
      (s.step o).2.standing .incoming = some .forward := by
  have hs := newborn_created (.start fun n _ _ => if n = 10 then some (.lost "") else none) rfl
  exact ⟨hs, by decide, by decide, by decide, by decide⟩

end Site

end PodFirewall
