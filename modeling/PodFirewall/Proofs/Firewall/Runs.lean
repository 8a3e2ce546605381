import PodFirewall.Proofs.Firewall.Edits

/-!
Runs of operations on a firewall. An operation asks first whether the firewall
exists. If it does, the operation works on the rules and then sets the default
actions; only the application of a record that just loses rules goes another
way, which ends with its deletions. `Site.step_cases` says this once for all
operations.
-/

namespace PodFirewall

inductive Operation where
  | apply (record : Record) (rules : List Rule)
  | cease (name : String)
  | ceaseParent (dialect : Dialect) (parent : String)

inductive Command where
  | operation (o : Operation)
  | enforce (name : String) (rules : PerDirection (List Rule))
  | remove (d : Direction) (rules : List Rule)

def Record.plain (name : String) (priority : Int) (d : Direction) : Record where
  name := name
  parent := ⟨name, priority, .k8s⟩
  priority := 0
  created := none
  direction := d
  subject := ⟨none, false, ""⟩
  peer := none
  templates := []
  action := .forward

namespace Backend

/-- Whether a service came about by calls and by changes from elsewhere,
whatever went wrong with them. -/
inductive Reached : Backend → Prop where
  | start (faults : Nat → String → Call → Option Fault) : Reached { empty with faults := faults }
  | call {b : Backend} (name : String) (call : Call) : Reached b → Reached (b.perform name call).2
  | elsewhere {b : Backend} (name : String) (call : Call) :
      Reached b → Reached (b.intervene name call).2

end Backend

namespace Site

def chain (s : Site) (d : Direction) : List Rule :=
  ((s.held?).map fun fw => (fw.get d.chain).rules).getD []

def Created (s : Site) : Prop :=
  ∃ b, Backend.Reached b ∧ Site.create b s.name = (.ok s.toDeployed, s.backend)

def step (s : Site) : Operation → Outcome × Site
  | .apply record rules => s.apply record rules
  | .cease name => s.cease name
  | .ceaseParent dialect parent => s.ceaseParent dialect parent

def run (s : Site) (ops : List Operation) : Site := ops.foldl (fun s o => (s.step o).2) s

def obey (s : Site) : Command → Site
  | .operation o => (s.step o).2
  | .enforce name rules => (s.enforce name rules).2
  | .remove d rules => (s.remove d rules).2

def obeyAll (s : Site) (commands : List Command) : Site := commands.foldl obey s

theorem run_concat (s : Site) (ops : List Operation) (o : Operation) :
    s.run (ops ++ [o]) = ((s.run ops).step o).2 := by
  rw [run, List.foldl_append]
  rfl

/-! ### The parts of an operation -/

/-- The place in the chain from which on it must be built anew to apply a
record. -/
def rebuildStart (l : Ledger) (record : Record) (rules : List Rule) : Nat :=
  let d := record.direction
  let placed := place (l.applied.get d) record rules
  match ({ l with applied := l.applied.set d placed.entries } : Ledger).firstOutOfSync d with
  | some i => min placed.start i
  | none => placed.start

/-- The records whose rules are appended anew when a record is applied. -/
def rebuiltPart (l : Ledger) (record : Record) (rules : List Rule) : List Applied :=
  (place (l.applied.get record.direction) record rules).entries.drop (rebuildStart l record rules)

def work (s : Site) : Operation → Outcome × Site
  | .apply record rules =>
    let d := record.direction
    let placed := place (s.ledger.applied.get d) record rules
    resplice { s with ledger := { s.ledger with
      applied := s.ledger.applied.set d placed.entries } } d (rebuildStart s.ledger record rules)
  | .cease name => ceaseRules { s with ledger := s.ledger.retire (· == name) } name
  | .ceaseParent dialect parent =>
    let ledger := s.ledger.retire (Record.belongsTo dialect parent)
    ceaseEach (ledger.rules.keys.filter (Record.belongsTo dialect parent)) (.ok ())
      { s with ledger := ledger }

def settle (worked : Outcome × Site) : Outcome × Site :=
  (worked.1.both worked.2.updateDefaults.1, worked.2.updateDefaults.2)

def quiet? (l : Ledger) : Operation → Option Nat
  | .apply record rules => shrinkable? l record rules
  | _ => none

theorem checkAlive_cases (s : Site) :
    ∃ b, Worked s { s with backend := b } ∧
      (s.checkAlive = (.ok (), { s with backend := b }) ∨
        ∃ e, s.checkAlive = (.error e, { s with backend := b })) := by
  have hs := Worked.checkAlive s
  unfold checkAlive at hs ⊢
  split at hs <;> rename_i b _
  · exact ⟨b, hs, .inl rfl⟩
  · exact ⟨b, hs, .inr ⟨_, rfl⟩⟩
  · exact ⟨b, hs, .inr ⟨_, rfl⟩⟩

/-- An operation ends with the question whether the firewall exists, or with the
deletions of a record that loses rules, or it works and settles. -/
theorem step_cases (s : Site) (o : Operation) :
    ∃ b, Worked s { s with backend := b } ∧
      ((∃ e, s.checkAlive = (.error e, { s with backend := b }) ∧
          s.step o = (.error e, { s with backend := b })) ∨
        (s.checkAlive = (.ok (), { s with backend := b }) ∧
          ((∃ record rules i, o = .apply record rules ∧ quiet? s.ledger o = some i ∧
              s.step o = shrink { s with backend := b } i record rules) ∨
            (quiet? s.ledger o = none ∧
              s.step o = settle (work { s with backend := b } o))))) := by
  obtain ⟨b, hs, halive | ⟨e, hdead⟩⟩ := checkAlive_cases s
  · refine ⟨b, hs, .inr ⟨halive, ?_⟩⟩
    cases o with
    | cease name =>
      refine .inr ⟨rfl, ?_⟩
      simp only [step, cease, halive]
      rfl
    | ceaseParent dialect parent =>
      refine .inr ⟨rfl, ?_⟩
      simp only [step, ceaseParent, halive]
      rfl
    | apply record rules =>
      simp only [step, apply, halive]
      cases hquiet : shrinkable? s.ledger record rules with
      | some i => exact .inl ⟨record, rules, i, rfl, hquiet, rfl⟩
      | none => exact .inr ⟨hquiet, rfl⟩
  · refine ⟨b, hs, .inl ⟨e, hdead, ?_⟩⟩
    cases o <;> simp only [step, apply, cease, ceaseParent, hdead]

/-- Shrinking a record works on the rules once the record is replaced. -/
theorem worked_shrink (s : Site) (i : Nat) (record : Record) (rules : List Rule) :
    Worked { s with ledger := { s.ledger with
        applied := s.ledger.applied.modify record.direction fun entries =>
          entries.set i ⟨record, rules⟩ } } (s.shrink i record rules).2 :=
  .remove _ _ _

/-- An operation changes the applied records and then works on the rules. -/
theorem worked_work (s : Site) (o : Operation) :
    ∃ applied, Worked { s with ledger := { s.ledger with applied := applied } } (s.work o).2 := by
  cases o with
  | apply record rules => exact ⟨_, .resplice _ _ _⟩
  | cease name => exact ⟨_, .ceaseRules _ _⟩
  | ceaseParent dialect parent => exact ⟨_, .ceaseEach _ _ _⟩

/-! ### What the work of an operation does to a layout -/

section Work

variable {s : Site} {U : PerDirection Layout}

theorem applied_work_cease (s : Site) (name : String) :
    (s.work (.cease name)).2.ledger.applied = (s.ledger.retire (· == name)).applied :=
  (Worked.ceaseRules _ _).applied

theorem applied_work_ceaseParent (s : Site) (dialect : Dialect) (parent : String) :
    (s.work (.ceaseParent dialect parent)).2.ledger.applied =
      (s.ledger.retire (Record.belongsTo dialect parent)).applied :=
  (Worked.ceaseEach _ _ _).applied

theorem applied_work_apply (s : Site) (record : Record) (rules : List Rule) :
    (s.work (.apply record rules)).2.ledger.applied = s.ledger.applied.set record.direction
      (place (s.ledger.applied.get record.direction) record rules).entries :=
  (Worked.resplice _ _ _).applied

theorem Laid.work_cease (hU : s.Laid U) (name : String) :
    ∃ V, (s.work (.cease name)).2.Laid V ∧ (∀ d, (V.get d).Sublist (U.get d)) ∧
      ((s.work (.cease name)).1 = .ok () →
        ∀ d, V.get d = (U.get d).filter fun e => !e.1.any (· == name)) := by
  have hretired : Laid { s with ledger := s.ledger.retire (· == name) } U := hU.of_rules rfl
  obtain ⟨V, hV, hthin, hgone⟩ := hretired.ceaseRules name
  refine ⟨V, hV, fun d => (hthin d).sublist, fun hok d => ?_⟩
  rw [(hthin d).eq_of_none (hgone hok d)]
  exact List.filter_congr fun e _ => by cases hn : e.1 <;> simp [hn]

/-- Every name in the layout has a record, so a policy is ceased under all of its
names. -/
theorem Laid.work_ceaseParent (hU : s.Laid U) (dialect : Dialect) (parent : String) :
    ∃ V, (s.work (.ceaseParent dialect parent)).2.Laid V ∧
      (∀ d, (V.get d).Sublist (U.get d)) ∧
      ((s.work (.ceaseParent dialect parent)).1 = .ok () →
        ∀ d, V.get d = (U.get d).filter fun e => !e.1.any (Record.belongsTo dialect parent)) := by
  have hretired : Laid { s with ledger := s.ledger.retire (Record.belongsTo dialect parent) } U :=
    hU.of_rules rfl
  obtain ⟨V, hV, hthin, hgone⟩ := hretired.ceaseEach
    (s.ledger.rules.keys.filter (Record.belongsTo dialect parent)) (.ok ())
  refine ⟨V, hV, fun d => (hthin d).sublist, fun hok d => ?_⟩
  rw [(hthin d).eq_of_none ((hgone hok).2 d)]
  refine List.filter_congr fun e he => ?_
  cases hn : e.1 with
  | none => simp [hn]
  | some name =>
    -- only names with recorded rules are looked at, and these are all in the layout
    have hkey := hU.records.mem_keys he hn
    simp [hn, hkey]

/-- Placing a record either leaves some entries of the rebuilt part over, or
builds this part anew as far as nothing fails. -/
theorem Laid.work_apply (hU : s.Laid U) (record : Record) (rules : List Rule) :
    ∃ V, (s.work (.apply record rules)).2.Laid V ∧
      (((s.work (.apply record rules)).1 ≠ .ok () ∧
          (∀ d, (V.get d).Sublist (U.get d)) ∧
          ∀ kind : Call → Bool, (∀ c id, kind (.delete c id) = true) →
            s.backend.failures kind < (s.work (.apply record rules)).2.backend.failures kind) ∨
        ∃ k, Respliced record.direction (rebuiltPart s.ledger record rules) k U V ∧
          ((s.work (.apply record rules)).1 = .ok () →
            (rebuiltPart s.ledger record rules).length ≤ k)) := by
  have hplaced : Laid { s with ledger := { s.ledger with
      applied := s.ledger.applied.set record.direction
        (place (s.ledger.applied.get record.direction) record rules).entries } } U :=
    hU.of_rules rfl
  obtain ⟨V, hV, ⟨hfailed, hthin, hlost⟩ | ⟨k, hspliced, hall⟩⟩ :=
    hplaced.resplice record.direction (rebuildStart s.ledger record rules)
  · exact ⟨V, hV, .inl ⟨hfailed, fun d => (hthin d).sublist, hlost⟩⟩
  · dsimp only at hspliced hall
    rw [PerDirection.get_set_self] at hspliced hall
    exact ⟨V, hV, .inr ⟨k, hspliced, hall⟩⟩

end Work

/-! ### Setting default actions -/

def due (l : Ledger) (d : Direction) : RuleAction := defaultAction d l.restricted

/-- The default action of a direction stays as the ledger knows it, or it is set
and committed, as far as nothing fails; it is remembered if nothing failed. -/
theorem updateDefault_cases (s : Site) (d : Direction) :
    (s.ledger.defaults.get d = some (due s.ledger d) ∧ s.updateDefault d = (.ok (), s)) ∨
      s.ledger.defaults.get d ≠ some (due s.ledger d) ∧
        ((∃ e b, s.backend.perform s.name (.setDefault d.chain (due s.ledger d)) = (.error e, b) ∧
            s.updateDefault d = (.error (.backend e), { s with backend := b })) ∨
          ∃ b, s.backend.perform s.name (.setDefault d.chain (due s.ledger d)) = (.ok (), b) ∧
            ((∃ e b', b.perform s.name (.commit d.chain) = (.error e, b') ∧
                s.updateDefault d = (.error (.backend e), { s with backend := b' })) ∨
              ∃ b', b.perform s.name (.commit d.chain) = (.ok (), b') ∧
                s.updateDefault d = (.ok (), { s with
                  backend := b'
                  ledger := { s.ledger with
                    defaults := s.ledger.defaults.set d (some (due s.ledger d)) } }))) := by
  by_cases hknown : s.ledger.defaults.get d = some (due s.ledger d)
  · refine .inl ⟨hknown, ?_⟩
    unfold updateDefault
    exact if_pos hknown
  · refine .inr ⟨hknown, ?_⟩
    have hok {b : Backend} (h : s.backend.performAll s.name
        [.setDefault d.chain (due s.ledger d), .commit d.chain] = (.ok (), b)) :
        s.updateDefault d = (.ok (), { s with
          backend := b
          ledger := { s.ledger with
            defaults := s.ledger.defaults.set d (some (due s.ledger d)) } }) := by
      rw [due] at h hknown
      simp only [updateDefault, if_neg hknown, h, due]
    have hfailed {e : BackendError} {b : Backend} (h : s.backend.performAll s.name
        [.setDefault d.chain (due s.ledger d), .commit d.chain] = (.error e, b)) :
        s.updateDefault d = (.error (.backend e), { s with backend := b }) := by
      rw [due] at h hknown
      simp only [updateDefault, if_neg hknown, h]
    rcases hset : s.backend.perform s.name (.setDefault d.chain (due s.ledger d)) with
      ⟨e | ⟨⟨⟩⟩, b⟩
    · exact .inl ⟨e, b, rfl, hfailed (by simp only [Backend.performAll, hset])⟩
    · refine .inr ⟨b, rfl, ?_⟩
      rcases hcommit : b.perform s.name (.commit d.chain) with ⟨e | ⟨⟨⟩⟩, b'⟩
      · exact .inl ⟨e, b', rfl, hfailed (by simp only [Backend.performAll, hset, hcommit])⟩
      · exact .inr ⟨b', rfl, hok (by simp only [Backend.performAll, hset, hcommit])⟩

structure Tuned (s s' : Site) : Prop where
  name : s'.name = s.name
  applied : s'.ledger.applied = s.ledger.applied
  rules : s'.ledger.rules = s.ledger.rules
  failures_le : ∀ kind, s.backend.failures kind ≤ s'.backend.failures kind

theorem Tuned.trans {s s' s'' : Site} (h : Tuned s s') (h' : Tuned s' s'') : Tuned s s'' where
  name := h'.name.trans h.name
  applied := h'.applied.trans h.applied
  rules := h'.rules.trans h.rules
  failures_le kind := Nat.le_trans (h.failures_le kind) (h'.failures_le kind)

theorem tuned_updateDefault (s : Site) (d : Direction) : Tuned s (s.updateDefault d).2 := by
  rcases updateDefault_cases s d with ⟨-, h⟩ | ⟨-, ⟨e, b, hset, h⟩ | ⟨b, hset, hcommit⟩⟩
  · rw [h]
    exact ⟨rfl, rfl, rfl, fun _ => Nat.le_refl _⟩
  · rw [h]
    exact ⟨rfl, rfl, rfl, fun kind => Backend.failures_le_perform hset kind⟩
  · have hfailures := Backend.failures_le_perform hset
    rcases hcommit with ⟨e, b', hcommit, h⟩ | ⟨b', hcommit, h⟩ <;> rw [h] <;>
      exact ⟨rfl, rfl, rfl, fun kind =>
        Nat.le_trans (hfailures kind) (Backend.failures_le_perform hcommit kind)⟩

theorem tuned_updateDefaults (s : Site) : Tuned s s.updateDefaults.2 :=
  (tuned_updateDefault s .incoming).trans (tuned_updateDefault _ .outgoing)

theorem failures_updateDefault {kind : Call → Bool}
    (hkind : ∀ c, (∀ a, kind (.setDefault c a) = true) ∧ kind (.commit c) = true) (s : Site)
    (d : Direction) :
    (s.updateDefault d).1 = .ok () ∨
      s.backend.failures kind < (s.updateDefault d).2.backend.failures kind := by
  rcases updateDefault_cases s d with ⟨-, h⟩ | ⟨-, ⟨e, b, hset, h⟩ | ⟨b, hset, hcommit⟩⟩
  · exact .inl (by rw [h])
  · right
    rw [h]
    exact Nat.lt_of_lt_of_eq (Nat.lt_succ_self _)
      (Backend.failures_of_error hset ((hkind _).1 _)).symm
  · rcases hcommit with ⟨e, b', hcommit, h⟩ | ⟨b', hcommit, h⟩
    · right
      rw [h]
      have hfailures := Backend.failures_le_perform hset kind
      have hfailed := Backend.failures_of_error hcommit (hkind _).2
      dsimp only
      omega
    · exact .inl (by rw [h])

theorem failures_updateDefaults {kind : Call → Bool}
    (hkind : ∀ c, (∀ a, kind (.setDefault c a) = true) ∧ kind (.commit c) = true) (s : Site) :
    s.updateDefaults.1 = .ok () ∨
      s.backend.failures kind < s.updateDefaults.2.backend.failures kind := by
  have hle := (tuned_updateDefault s .incoming).failures_le kind
  have hle' := (tuned_updateDefault (s.updateDefault .incoming).2 .outgoing).failures_le kind
  rcases failures_updateDefault hkind s .incoming with hok | hlt
  · rcases failures_updateDefault hkind (s.updateDefault .incoming).2 .outgoing with hok' | hlt
    · exact .inl (Outcome.later_eq_ok.2 ⟨hok, hok'⟩)
    · exact .inr (Nat.lt_of_le_of_lt hle hlt)
  · exact .inr (Nat.lt_of_lt_of_le hlt hle')

theorem failures_le_shrink (s : Site) (i : Nat) (record : Record) (rules : List Rule)
    (kind : Call → Bool) :
    s.backend.failures kind ≤ (s.shrink i record rules).2.backend.failures kind :=
  (worked_shrink s i record rules).failures_le kind

theorem failures_le_work (s : Site) (o : Operation) (kind : Call → Bool) :
    s.backend.failures kind ≤ (s.work o).2.backend.failures kind := by
  obtain ⟨applied, hworked⟩ := worked_work s o
  exact hworked.failures_le kind

theorem failures_le_step (s : Site) (o : Operation) (kind : Call → Bool) :
    s.backend.failures kind ≤ (s.step o).2.backend.failures kind := by
  obtain ⟨b, hb, ⟨e, -, hstep⟩ | ⟨-, ⟨record, rules, i, -, -, hstep⟩ | ⟨-, hstep⟩⟩⟩ :=
    step_cases s o <;> rw [hstep]
  · exact hb.failures_le kind
  · exact Nat.le_trans (hb.failures_le kind) (failures_le_shrink _ i record rules kind)
  · refine Nat.le_trans (hb.failures_le kind) (Nat.le_trans (failures_le_work _ o kind) ?_)
    exact (tuned_updateDefaults _).failures_le kind

/-- If an operation that works and settles fails nothing, neither does its
work. -/
theorem failures_work_of_fine {s : Site} {b : Backend} {o : Operation} {kind : Call → Bool}
    (hb : Worked s { s with backend := b })
    (hfine : (settle (work { s with backend := b } o)).2.backend.failures kind =
      s.backend.failures kind) :
    (work { s with backend := b } o).2.backend.failures kind = b.failures kind := by
  have hle := hb.failures_le kind
  have hle' := failures_le_work { s with backend := b } o kind
  have hle'' := (tuned_updateDefaults (work { s with backend := b } o).2).failures_le kind
  dsimp only [settle] at hfine hle hle' hle''
  omega

/-- If no deletion of an operation fails, then a shrunk record has lost the rules
that it should lose, or the work failed no deletion. -/
theorem step_cases_of_fine {kind : Call → Bool} (hkind : ∀ c id, kind (.delete c id) = true)
    (s : Site) (o : Operation)
    (hfine : (s.step o).2.backend.failures kind = s.backend.failures kind) :
    ∃ b, (∃ e, s.checkAlive = (.error e, { s with backend := b }) ∧
          s.step o = (.error e, { s with backend := b })) ∨
        (s.checkAlive = (.ok (), { s with backend := b }) ∧
          ((∃ record rules i, o = .apply record rules ∧ quiet? s.ledger o = some i ∧
              (shrink { s with backend := b } i record rules).1 = .ok () ∧
              s.step o = shrink { s with backend := b } i record rules) ∨
            ((work { s with backend := b } o).2.backend.failures kind = b.failures kind ∧
              s.step o = settle (work { s with backend := b } o)))) := by
  obtain ⟨b, hb, hdead | ⟨halive, ⟨record, rules, i, ho, hquiet, hstep⟩ | ⟨-, hstep⟩⟩⟩ :=
    step_cases s o
  · exact ⟨b, .inl hdead⟩
  · have hle := hb.failures_le kind
    rw [hstep] at hfine
    have hok : (shrink { s with backend := b } i record rules).1 = .ok () :=
      (failures_shrink hkind { s with backend := b } i record rules).resolve_right
        fun hlt => by dsimp only at hle hlt; omega
    exact ⟨b, .inr ⟨halive, .inl ⟨record, rules, i, ho, hquiet, hok, hstep⟩⟩⟩
  · rw [hstep] at hfine
    exact ⟨b, .inr ⟨halive, .inr ⟨failures_work_of_fine hb hfine, hstep⟩⟩⟩

theorem failures_le_run (s : Site) (ops : List Operation) (kind : Call → Bool) :
    s.backend.failures kind ≤ (s.run ops).backend.failures kind := by
  induction ops generalizing s with
  | nil => exact Nat.le_refl _
  | cons o rest ih => exact Nat.le_trans (failures_le_step s o kind) (ih _)

theorem Laid.updateDefault {s : Site} {U : PerDirection Layout} (hU : s.Laid U) (d : Direction) :
    (s.updateDefault d).2.Laid U := by
  rcases updateDefault_cases s d with ⟨-, h⟩ | ⟨-, ⟨e, b, hset, h⟩ | ⟨b, hset, hcommit⟩⟩
  · rw [h]
    exact hU
  · rw [h]
    exact hU.failed hset
  · have hb := hU.holds.perform hset nofun rfl
    rcases hcommit with ⟨e, b', hcommit, h⟩ | ⟨b', hcommit, h⟩
    · rw [h]
      exact ⟨hb.failed hcommit, hU.records⟩
    · rw [h]
      have hb' : Laid { s with backend := b' } U := ⟨hb.perform hcommit nofun rfl, hU.records⟩
      exact hb'.of_rules rfl

theorem Laid.updateDefaults {s : Site} {U : PerDirection Layout} (hU : s.Laid U) :
    s.updateDefaults.2.Laid U :=
  (hU.updateDefault .incoming).updateDefault .outgoing

theorem Laid.checkAlive {s : Site} {U : PerDirection Layout} (hU : s.Laid U) :
    s.checkAlive.2.Laid U := by
  unfold Site.checkAlive
  split <;> rename_i hfind <;> exact ⟨hU.holds.find hfind, hU.records⟩

/-! ### What a failure costs -/

variable {kind : Call → Bool}

/-- A firewall that follows layouts exists, so only a call that failed can hide
it. -/
theorem failures_checkAlive (hkind : kind .find = true) {s : Site} {U : PerDirection Layout}
    (hU : s.Laid U) :
    s.checkAlive.1 = .ok () ∨
      s.backend.failures kind < s.checkAlive.2.backend.failures kind := by
  unfold checkAlive
  split
  · exact .inl rfl
  · rename_i hfind
    obtain ⟨fw, hfw, -⟩ := hU.holds
    have hfound := (Backend.find_ok hfind).2
    rw [OrdMap.contains, hfw] at hfound
    cases hfound
  · rename_i hfind
    exact .inr (Backend.failures_of_find_error hfind hkind)

theorem failures_work_cease (hkind : ∀ c id, kind (.delete c id) = true) (s : Site)
    (name : String) : (s.work (.cease name)).1 = .ok () ∨
      s.backend.failures kind < (s.work (.cease name)).2.backend.failures kind :=
  failures_ceaseRules hkind _ _

theorem failures_work_ceaseParent (hkind : ∀ c id, kind (.delete c id) = true) (s : Site)
    (dialect : Dialect) (parent : String) : (s.work (.ceaseParent dialect parent)).1 = .ok () ∨
      s.backend.failures kind < (s.work (.ceaseParent dialect parent)).2.backend.failures kind :=
  failures_ceaseEach hkind _ _ _

theorem failures_work (hkind : ∀ call, kind call = true) (s : Site) (o : Operation) :
    (s.work o).1 = .ok () ∨ s.backend.failures kind < (s.work o).2.backend.failures kind := by
  cases o with
  | apply record rules => exact failures_resplice hkind _ _ _
  | cease name => exact failures_work_cease (fun _ _ => hkind _) s name
  | ceaseParent dialect parent =>
    exact failures_work_ceaseParent (fun _ _ => hkind _) s dialect parent

/-- An operation fails only if a call fails. -/
theorem failures_step (hkind : ∀ call, kind call = true) {s : Site} {U : PerDirection Layout}
    (hU : s.Laid U) (o : Operation) :
    (s.step o).1 = .ok () ∨ s.backend.failures kind < (s.step o).2.backend.failures kind := by
  obtain ⟨b, hb, ⟨e, hdead, hstep⟩ | ⟨-, ⟨record, rules, i, -, -, hstep⟩ | ⟨-, hstep⟩⟩⟩ :=
    step_cases s o <;> rw [hstep]
  · have hcheck := failures_checkAlive (hkind .find) hU
    rw [hdead] at hcheck
    exact .inr (hcheck.resolve_left nofun)
  · have hle := hb.failures_le kind
    rcases failures_shrink (fun _ _ => hkind _) { s with backend := b } i record rules with
      hok | hlt
    · exact .inl hok
    · exact .inr (Nat.lt_of_le_of_lt hle hlt)
  · have hle := hb.failures_le kind
    have hle' := failures_le_work { s with backend := b } o kind
    have hle'' := (tuned_updateDefaults (work { s with backend := b } o).2).failures_le kind
    rcases failures_work hkind { s with backend := b } o with hok | hlt
    · rcases failures_updateDefaults (fun c => ⟨fun _ => hkind _, hkind _⟩)
        (work { s with backend := b } o).2 with hok' | hlt
      · exact .inl (Outcome.both_eq_ok.2 ⟨hok, hok'⟩)
      · exact .inr (Nat.lt_of_le_of_lt (Nat.le_trans hle hle') hlt)
    · exact .inr (Nat.lt_of_le_of_lt hle (Nat.lt_of_lt_of_le hlt hle''))

theorem checkAlive_of_step_ok {s : Site} {o : Operation} (h : (s.step o).1 = .ok ()) :
    s.checkAlive.1 = .ok () := by
  obtain ⟨b, -, ⟨e, -, hstep⟩ | ⟨halive, -⟩⟩ := step_cases s o
  · rw [hstep] at h
    cases h
  · rw [halive]

end Site

end PodFirewall
