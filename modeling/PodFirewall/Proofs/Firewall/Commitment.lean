import PodFirewall.Proofs.Firewall.Defaults

/-!
Changes and commits. A change of a chain takes effect once the chain is
committed, and every part of an operation commits what it changed. If such a
commit fails, only the setting of a default action reports it: rules that were
added or deleted count as done all the same, and nothing commits them until the
chain is changed again. So a chain is pending after an operation, successful or
not, exactly if the last commit of it failed.
-/

namespace PodFirewall

namespace Call

/-- Whether a call, if it is done, changes a chain in a way that must be
committed. -/
def changes (c : Chain) : Call → Bool
  | .append c' _ | .delete c' _ | .setDefault c' _ => c' == c
  | _ => false

def isCommit : Call → Bool
  | .commit _ => true
  | _ => false

end Call

namespace LogEntry

def changes (name : String) (c : Chain) (e : LogEntry) : Bool :=
  e.done && e.firewall == name && e.call.changes c

def asksCommit (name : String) (c : Chain) (e : LogEntry) : Bool :=
  e.firewall == name && e.call == .commit c

end LogEntry

namespace Site

/-! ### Properties that the parts of an operation keep -/

/-- Whether a property of the calls made so far is kept by each part that the
commands are made of. -/
structure Stable (P : Site → Prop) : Prop where
  ledger : ∀ {s} (l : Ledger), P s → P { s with ledger := l }
  checkAlive : ∀ {s}, P s → P s.checkAlive.2
  inject : ∀ {s} (d : Direction) (rules : List Rule), P s → P (s.inject d rules).2
  remove : ∀ {s} (d : Direction) (rules : List Rule), P s → P (s.remove d rules).2
  updateDefault : ∀ {s} (d : Direction), P s → P (s.updateDefault d).2

namespace Stable

variable {P : Site → Prop} {s : Site}

theorem ceaseRules (hP : Stable P) (h : P s) (name : String) : P (s.ceaseRules name).2 := by
  unfold Site.ceaseRules
  split
  · exact h
  · exact hP.remove .outgoing _ (hP.remove .incoming _ h)

theorem ceaseEach (hP : Stable P) (h : P s) (names : List String) (out : Outcome) :
    P (Site.ceaseEach names out s).2 := by
  induction names generalizing s out with
  | nil => exact h
  | cons name rest ih => exact ih (hP.ceaseRules h name) _

theorem injectEach (hP : Stable P) (h : P s) (d : Direction) (applied : List Applied) :
    P (Site.injectEach d applied s).2 := by
  induction applied generalizing s with
  | nil => exact h
  | cons a rest ih =>
    have hs := hP.inject d a.rules h
    unfold Site.injectEach
    split <;> rename_i hinject <;> rw [hinject] at hs
    · exact hs
    · exact ih (hP.ledger _ hs)

theorem updateDefaults (hP : Stable P) (h : P s) : P s.updateDefaults.2 :=
  hP.updateDefault .outgoing (hP.updateDefault .incoming h)

theorem resplice (hP : Stable P) (h : P s) (d : Direction) (start : Nat) :
    P (s.resplice d start).2 := by
  have hs := hP.ceaseEach h (((s.ledger.applied.get d).drop start).map (·.record.name)) (.ok ())
  unfold Site.resplice
  dsimp only
  split <;> rename_i hceased <;> rw [hceased] at hs
  · exact hs
  · exact hP.injectEach hs d _

theorem work (hP : Stable P) (h : P s) (o : Operation) : P (s.work o).2 := by
  cases o with
  | apply record rules => exact hP.resplice (hP.ledger _ h) _ _
  | cease name => exact hP.ceaseRules (hP.ledger _ h) name
  | ceaseParent dialect parent => exact hP.ceaseEach (hP.ledger _ h) _ _

theorem step (hP : Stable P) (h : P s) (o : Operation) : P (s.step o).2 := by
  have hchecked := hP.checkAlive h
  obtain ⟨b, -, ⟨e, hdead, hstep⟩ | ⟨halive, ⟨record, rules, i, -, -, hstep⟩ | ⟨-, hstep⟩⟩⟩ :=
    step_cases s o <;> rw [hstep]
  · rwa [hdead] at hchecked
  · rw [halive] at hchecked
    exact hP.remove _ _ (hP.ledger _ hchecked)
  · rw [halive] at hchecked
    exact hP.updateDefaults (hP.work hchecked o)

theorem enforce (hP : Stable P) (h : P s) (name : String) (rules : PerDirection (List Rule)) :
    P (s.enforce name rules).2 := by
  have hchecked := hP.checkAlive h
  unfold Site.enforce
  split <;> rename_i halive <;> rw [halive] at hchecked
  · exact hchecked
  · exact hP.ledger _ (hP.inject .outgoing _ (hP.inject .incoming _ hchecked))

theorem obey (hP : Stable P) (h : P s) (command : Command) : P (s.obey command) := by
  cases command with
  | operation o => exact hP.step h o
  | enforce name rules => exact hP.enforce h name rules
  | remove d rules => exact hP.remove d rules h

theorem obeyAll (hP : Stable P) (h : P s) (commands : List Command) : P (s.obeyAll commands) := by
  induction commands generalizing s with
  | nil => exact h
  | cons command rest ih => exact ih (hP.obey h command)

end Stable

/-! ### Pending changes -/

def sinceCommit (s : Site) (c : Chain) : List LogEntry :=
  s.backend.log.takeWhile fun e => !e.commits s.name c

def Pending (s : Site) (c : Chain) : Prop :=
  ((s.sinceCommit c).any fun e => e.changes s.name c) = true

/-- Whether the last call that was to commit a chain failed. -/
def CommitLost (s : Site) (c : Chain) : Prop :=
  ((s.backend.log.find? fun e => e.asksCommit s.name c).any fun e => !e.done) = true

instance (s : Site) (c : Chain) : Decidable (s.Pending c) := inferInstanceAs (Decidable (_ = true))

instance (s : Site) (c : Chain) : Decidable (s.CommitLost c) :=
  inferInstanceAs (Decidable (_ = true))

/-- Whether a chain is pending just if its last commit failed. -/
def Level (c : Chain) (s : Site) : Prop := s.Pending c ↔ s.CommitLost c

variable {s : Site} {c : Chain} {call : Call} {b : Backend} {r : Except BackendError Unit}

/-- A change that is done makes its chain pending. -/
theorem pending_of_changed (h : s.backend.perform s.name call = (.ok (), b))
    (hcall : call.changes c = true) : Pending { s with backend := b } c := by
  have hcommit : call ≠ .commit c := fun heq => by
    rw [heq] at hcall
    cases hcall
  rw [Pending, sinceCommit, Backend.log_perform h, List.takeWhile_cons_of_pos, List.any_cons]
  · simp [LogEntry.changes, Except.toBool, hcall]
  · simp [LogEntry.commits, hcommit]

theorem Pending.congr (h : s.Pending c) (hperform : s.backend.perform s.name call = (r, b))
    (hcommit : call ≠ .commit c) : Pending { s with backend := b } c := by
  rw [Pending, sinceCommit, Backend.log_perform hperform, List.takeWhile_cons_of_pos,
    List.any_cons, Bool.or_eq_true]
  · exact .inr h
  · simp [LogEntry.commits, hcommit]

/-- A call that does not change a chain, or is not done, and does not commit the
chain either. -/
theorem Level.quiet (h : Level c s) (hperform : s.backend.perform s.name call = (r, b))
    (hcommit : call ≠ .commit c) (hquiet : (r.toBool && call.changes c) = false) :
    Level c { s with backend := b } := by
  have hchanges : LogEntry.changes s.name c ⟨s.name, call, r.toBool⟩ = false := by
    simpa [LogEntry.changes] using hquiet
  have hpending : Pending { s with backend := b } c ↔ s.Pending c := by
    rw [Pending, sinceCommit, Backend.log_perform hperform, List.takeWhile_cons_of_pos,
      List.any_cons, hchanges, Bool.false_or]
    · rfl
    · simp [LogEntry.commits, hcommit]
  have hlost : CommitLost { s with backend := b } c ↔ s.CommitLost c := by
    rw [CommitLost, Backend.log_perform hperform, List.find?_cons_of_neg]
    · rfl
    · simp [LogEntry.asksCommit, hcommit]
  exact hpending.trans (h.trans hlost.symm)

/-- The commit of a pending chain decides whether the chain stays pending. -/
theorem Pending.commit (h : s.Pending c)
    (hperform : s.backend.perform s.name (.commit c) = (r, b)) :
    Level c { s with backend := b } := by
  have hlost : CommitLost { s with backend := b } c ↔ r.toBool = false := by
    rw [CommitLost, Backend.log_perform hperform, List.find?_cons_of_pos]
    · simp
    · simp [LogEntry.asksCommit]
  rw [Level, hlost, Pending, sinceCommit, Backend.log_perform hperform, List.takeWhile_cons]
  cases hr : r.toBool with
  | true => simp [LogEntry.commits]
  | false =>
    rw [if_pos (by simp [LogEntry.commits]), List.any_cons, Bool.or_eq_true]
    exact iff_of_true (.inr h) rfl

/-! ### Parts of an operation leave chains level -/

theorem Level.find (h : Level c s) {r : Except BackendError Bool}
    (hfind : s.backend.find s.name = (r, b)) : Level c { s with backend := b } := by
  unfold Backend.find at hfind
  split at hfind <;> rename_i hp <;> obtain ⟨-, rfl⟩ := Prod.mk.inj hfind <;>
    exact h.quiet hp nofun (Bool.and_false _)

theorem Level.read (h : Level c s) {c' : Chain} {r : Except BackendError (List Rule)}
    (hread : s.backend.read s.name c' = (r, b)) : Level c { s with backend := b } := by
  unfold Backend.read at hread
  split at hread <;> rename_i hp <;> obtain ⟨-, rfl⟩ := Prod.mk.inj hread <;>
    exact h.quiet hp nofun (Bool.and_false _)

theorem Level.checkAlive (h : Level c s) : Level c s.checkAlive.2 := by
  unfold Site.checkAlive
  split <;> rename_i hfind <;> exact h.find hfind

/-- On another chain deletions change nothing. -/
theorem Level.deleteEach (h : Level c s) {d : Direction} (hd : d.chain ≠ c) (rules : List Rule)
    (out : Deletion) : Level c (Site.deleteEach d rules out s).2 := by
  induction rules generalizing out s with
  | nil => exact h
  | cons r rest ih =>
    unfold Site.deleteEach
    have hquiet (done : Bool) : (done && (Call.delete d.chain r.id).changes c) = false := by
      simp [Call.changes, hd]
    split <;> rename_i b hdelete
    · exact ih (h.quiet hdelete nofun (hquiet _)) _
    · have hs : Level c { s with backend := b, ledger := s.ledger.deleted d r.id } :=
        h.quiet hdelete nofun (hquiet _)
      exact ih hs _

/-- On its own chain any deletion that is done leaves the chain pending. -/
theorem deleteEach_level {d : Direction} (rules : List Rule) (out : Deletion)
    (h : if out.any then s.Pending d.chain else Level d.chain s) :
    if (deleteEach d rules out s).1.any then (deleteEach d rules out s).2.Pending d.chain
      else Level d.chain (deleteEach d rules out s).2 := by
  induction rules generalizing out s with
  | nil => exact h
  | cons r rest ih =>
    unfold deleteEach
    split <;> rename_i hdelete
    · refine ih _ ?_
      dsimp only
      split <;> rename_i hany
      · rw [if_pos hany] at h
        exact h.congr hdelete nofun
      · rw [if_neg hany] at h
        exact h.quiet hdelete nofun rfl
    · exact ih _ (pending_of_changed (c := d.chain) hdelete (beq_self_eq_true _))

theorem Level.remove (h : Level c s) (d : Direction) (rules : List Rule) :
    Level c (s.remove d rules).2 := by
  unfold Site.remove
  split
  · exact h
  · by_cases hd : d.chain = c
    · subst hd
      have hdeleted := deleteEach_level (Rule.sortDown rules) ⟨[], false⟩ h
      split
      rename_i out s' hs'
      rw [hs'] at hdeleted
      split <;> rename_i hany
      · rw [if_pos hany] at hdeleted
        exact hdeleted.commit rfl
      · rw [if_neg hany] at hdeleted
        exact hdeleted
    · have hdeleted := h.deleteEach hd (Rule.sortDown rules) ⟨[], false⟩
      split
      rename_i out s' hs'
      rw [hs'] at hdeleted
      split
      · exact hdeleted.quiet rfl (by simpa using hd) (Bool.and_false _)
      · exact hdeleted

theorem Level.inject (h : Level c s) (d : Direction) (rules : List Rule) :
    Level c (s.inject d rules).2 := by
  unfold Site.inject
  split
  · exact h
  · split <;> rename_i b hread
    · exact h.read hread
    · have hs := h.read hread
      dsimp only
      split <;> rename_i b' happend
      · exact hs.quiet happend nofun rfl
      · by_cases hd : d.chain = c
        · subst hd
          have hpending : Pending { s with backend := b' } d.chain :=
            pending_of_changed (s := { s with backend := b }) happend (beq_self_eq_true _)
          exact hpending.commit rfl
        · have hs' : Level c { s with backend := b' } :=
            hs.quiet happend nofun (by simp [Call.changes, hd])
          exact hs'.quiet rfl (by simpa using hd) (Bool.and_false _)

theorem Level.updateDefault (h : Level c s) (d : Direction) : Level c (s.updateDefault d).2 := by
  rcases updateDefault_cases s d with ⟨-, hs⟩ | ⟨-, ⟨e, b, hset, hs⟩ | ⟨b, hset, hcommit⟩⟩
  · rw [hs]
    exact h
  · rw [hs]
    exact h.quiet hset nofun rfl
  · have hlevel (r : Except BackendError Unit) (b' : Backend)
        (hperform : b.perform s.name (.commit d.chain) = (r, b')) :
        Level c { s with backend := b' } := by
      by_cases hd : d.chain = c
      · subst hd
        exact (pending_of_changed hset (beq_self_eq_true _)).commit hperform
      · have hb : Level c { s with backend := b } :=
          h.quiet hset nofun (by simp [Call.changes, hd])
        exact hb.quiet hperform (by simpa using hd) (Bool.and_false _)
    rcases hcommit with ⟨e, b', hperform, hs⟩ | ⟨b', hperform, hs⟩ <;> rw [hs] <;>
      exact hlevel _ b' hperform

theorem stable_level (c : Chain) : Stable (Level c) where
  ledger _ h := h
  checkAlive h := h.checkAlive
  inject d rules h := h.inject d rules
  remove d rules h := h.remove d rules
  updateDefault d h := h.updateDefault d

/-! ### Runs -/

/-- The calls that set up a new firewall are all done, and each chain is committed
after its default action is set. -/
theorem Created.committed (hs : s.Created) (c : Chain) : ¬s.Pending c ∧ ¬s.CommitLost c := by
  obtain ⟨b, b₀, -, -, hset, -⟩ := hs.cases
  obtain ⟨b₁, hset₁, hset⟩ := Backend.performAll_cons_ok hset
  obtain ⟨b₂, hcommit₁, hset⟩ := Backend.performAll_cons_ok hset
  obtain ⟨b₃, hset₂, hset⟩ := Backend.performAll_cons_ok hset
  obtain ⟨b₄, hcommit₂, hset⟩ := Backend.performAll_cons_ok hset
  obtain ⟨-, rfl⟩ := Prod.mk.inj hset
  have hlog : s.backend.log = ⟨s.name, .commit .egress, true⟩ ::
      ⟨s.name, .setDefault .egress .forward, true⟩ :: ⟨s.name, .commit .ingress, true⟩ ::
        ⟨s.name, .setDefault .ingress .forward, true⟩ :: b₀.log := by
    rw [Backend.log_perform hcommit₂, Backend.log_perform hset₂, Backend.log_perform hcommit₁,
      Backend.log_perform hset₁]
    rfl
  rw [Pending, sinceCommit, CommitLost, hlog]
  cases c <;> simp [LogEntry.commits, LogEntry.changes, LogEntry.asksCommit, Call.changes]

def Later (s₀ s : Site) : Prop :=
  s.name = s₀.name ∧ ∃ new, s.backend.log = new ++ s₀.backend.log

theorem Later.refl (s : Site) : Later s s := ⟨rfl, [], rfl⟩

theorem Later.perform {s₀ : Site} (h : Later s₀ s)
    (hperform : s.backend.perform s.name call = (r, b)) : Later s₀ { s with backend := b } := by
  obtain ⟨hname, new, hlog⟩ := h
  exact ⟨hname, _ :: new, by rw [Backend.log_perform hperform, hlog]; rfl⟩

theorem Later.worked {s₀ s' : Site} (h : Later s₀ s) (hs : Worked s s') : Later s₀ s' := by
  obtain ⟨hname, new, hlog⟩ := h
  obtain ⟨new', hlog', -⟩ := hs.log
  exact ⟨hs.name.trans hname, new' ++ new, by rw [hlog', hlog, List.append_assoc]⟩

theorem stable_later (s₀ : Site) : Stable (Later s₀) where
  ledger _ h := h
  checkAlive h := h.worked (.checkAlive _)
  inject d rules h := h.worked (.inject _ d rules)
  remove d rules h := h.worked (.remove _ d rules)
  updateDefault {s} d h := by
    rcases updateDefault_cases s d with ⟨-, hs⟩ | ⟨-, ⟨e, b, hset, hs⟩ | ⟨b, hset, hcommit⟩⟩
    · rwa [hs]
    · rw [hs]
      exact h.perform hset
    · have hb := h.perform hset
      rcases hcommit with ⟨e, b', hcommit, hs⟩ | ⟨b', hcommit, hs⟩ <;> rw [hs] <;>
        exact hb.perform (s := { s with backend := b }) hcommit

/-- A commit that is lost from now on is one more call that failed. -/
theorem Later.failures_of_commitLost {s₀ : Site} (h : Later s₀ s) (hs : ¬s₀.CommitLost c)
    (hlost : s.CommitLost c) :
    s₀.backend.failures Call.isCommit < s.backend.failures Call.isCommit := by
  obtain ⟨hname, new, hlog⟩ := h
  rw [CommitLost] at hs
  rw [CommitLost, hname, hlog, List.find?_append] at hlost
  rw [Backend.failures, Backend.failures, hlog, List.countP_append]
  cases hnew : new.find? fun e => e.asksCommit s₀.name c with
  | none =>
    rw [hnew, Option.none_or] at hlost
    exact absurd hlost hs
  | some e =>
    rw [hnew, Option.some_or, Option.any_some] at hlost
    have hpos : 0 < new.countP fun e => !e.done && e.call.isCommit := by
      refine List.countP_pos_iff.2 ⟨e, List.mem_of_find?_eq_some hnew, ?_⟩
      have hasks := List.find?_some hnew
      simp only [LogEntry.asksCommit, Bool.and_eq_true, beq_iff_eq] at hasks
      rw [hlost, hasks.2]
      rfl
    omega

/-- After whatever was asked of a created firewall, and whatever that returned, a
chain is pending just if its last commit failed. None is as long as no commit
failed. -/
theorem pending_iff_commitLost {s₀ : Site} (hs : s₀.Created) (commands : List Command)
    (c : Chain) :
    ((s₀.obeyAll commands).Pending c ↔ (s₀.obeyAll commands).CommitLost c) ∧
      ((s₀.obeyAll commands).backend.failures Call.isCommit =
          s₀.backend.failures Call.isCommit → ¬(s₀.obeyAll commands).Pending c) := by
  obtain ⟨hpending, hlost⟩ := hs.committed c
  have hlevel := (stable_level c).obeyAll (iff_of_false hpending hlost) commands
  have hlater := (stable_later s₀).obeyAll (.refl s₀) commands
  refine ⟨hlevel, fun hfine h => ?_⟩
  exact Nat.ne_of_gt (hlater.failures_of_commitLost hlost (hlevel.1 h)) hfine

/-- Rules whose commit is lost, since it is the tenth call, are committed with
those that come next. -/
theorem not_pending_of_next :
    let s₀ := newborn { Backend.empty with
      faults := fun n _ _ => if n = 9 then some (.lost "") else none }
    let lost := [Command.enforce "a" ⟨[Rule.blank], []⟩]
    let next := lost ++ [.enforce "b" ⟨[Rule.blank], []⟩]
    s₀.Created ∧ (s₀.obeyAll lost).Pending .egress ∧ ¬(s₀.obeyAll next).Pending .egress := by
  intro s₀ lost next
  have hs : s₀.Created :=
    newborn_created (.start fun n _ _ => if n = 9 then some (.lost "") else none) rfl
  exact ⟨hs, (pending_iff_commitLost hs lost .egress).1.2 (by decide),
    fun h => absurd ((pending_iff_commitLost hs next .egress).1.1 h) (by decide)⟩

/-- The rules of a second record are appended, but their commit is lost. The
apply succeeds all the same, and so does the next one, which finds all rules in
place and makes no call that changes anything. -/
theorem succeeds_pending :
    let s₀ := newborn { Backend.empty with
      faults := fun n _ _ => if n = 15 then some (.lost "") else none }
    let o := Operation.apply (.plain "b" 7 .incoming) [Rule.blank]
    let s := s₀.run [.apply (.plain "a" 5 .incoming) [Rule.blank]]
    s₀.Created ∧ (s.step o).1 = .ok () ∧ (s.step o).2.Pending .egress ∧
      ((s.step o).2.step o).1 = .ok () ∧ ((s.step o).2.step o).2.Pending .egress := by
  have hs := newborn_created (.start fun n _ _ => if n = 15 then some (.lost "") else none) rfl
  exact ⟨hs, by decide, by decide, by decide, by decide⟩

end Site

end PodFirewall
