import PodFirewall.Proofs.Firewall.Commitment
import PodFirewall.Proofs.Firewall.Filing

/-!
The states in the course of an apply. An apply is made of parts: it removes the
rules of one name in one direction after the other, appends those of one record
after the other and sets default actions. Each part ends with the commit of what
it changed, if it makes one. So the states after the parts, the stops, are all
states at which anything is committed, and in each of them chains and ledger
follow a layout that is known.
-/

namespace PodFirewall

namespace Site

def ceaseStops (s : Site) (name : String) : List Site :=
  match s.ledger.rules.get? name with
  | none => []
  | some known => [(s.remove .incoming known.incoming).2, (s.ceaseRules name).2]

def ceaseEachStops : List String → Site → List Site
  | [], _ => []
  | name :: rest, s => s.ceaseStops name ++ ceaseEachStops rest (s.ceaseRules name).2

def injectEachStops (d : Direction) : List Applied → Site → List Site
  | [], _ => []
  | a :: rest, s =>
    match s.inject d a.rules with
    | (.error _, s) => [s]
    | (.ok added, s) =>
      let s := { s with ledger := s.ledger.record a.record.name d added }
      s :: injectEachStops d rest s

def respliceStops (s : Site) (d : Direction) (start : Nat) : List Site :=
  let tail := (s.ledger.applied.get d).drop start
  let names := tail.map (·.record.name)
  ceaseEachStops names s ++
    match ceaseEach names (.ok ()) s with
    | (.error _, _) => []
    | (.ok (), s) => injectEachStops d tail s

/-- The site with the record of an apply at its place, before anything is done
about its rules. -/
def placed (s : Site) (record : Record) (rules : List Rule) : Site :=
  { s with ledger := { s.ledger with
    applied := s.ledger.applied.set record.direction
      (place (s.ledger.applied.get record.direction) record rules).entries } }

/-- The states after the parts of an apply, the last of which is the one it
leaves. -/
def applyStops (s : Site) (record : Record) (rules : List Rule) : List Site :=
  match s.checkAlive with
  | (.error _, s) => [s]
  | (.ok (), s) =>
    match shrinkable? s.ledger record rules with
    | some i => [(s.shrink i record rules).2]
    | none =>
      let worked := (s.work (.apply record rules)).2
      respliceStops (s.placed record rules) record.direction
          (rebuildStart s.ledger record rules) ++
        [(worked.updateDefault .incoming).2, worked.updateDefaults.2]

theorem work_apply (s : Site) (record : Record) (rules : List Rule) :
    s.work (.apply record rules) =
      (s.placed record rules).resplice record.direction (rebuildStart s.ledger record rules) :=
  rfl

theorem drop_placed (s : Site) (record : Record) (rules : List Rule) :
    ((s.placed record rules).ledger.applied.get record.direction).drop
      (rebuildStart s.ledger record rules) = rebuiltPart s.ledger record rules := by
  rw [placed, PerDirection.get_set_self]
  rfl

theorem ceaseRules_snd {s : Site} {name : String} {known : PerDirection (List Rule)}
    (h : s.ledger.rules.get? name = some known) : (s.ceaseRules name).2 =
      ((s.remove .incoming known.incoming).2.remove .outgoing known.outgoing).2 := by
  simp only [ceaseRules, h]

/-- What an apply that finds the firewall does, and the states it goes
through. -/
theorem apply_cases (s : Site) (record : Record) (rules : List Rule) :
    ∃ b, Worked s { s with backend := b } ∧
      ((∃ e, s.checkAlive = (.error e, { s with backend := b }) ∧
          s.apply record rules = (.error e, { s with backend := b }) ∧
          s.applyStops record rules = [{ s with backend := b }]) ∨
        s.checkAlive = (.ok (), { s with backend := b }) ∧
          ((∃ i, shrinkable? s.ledger record rules = some i ∧
              s.apply record rules = shrink { s with backend := b } i record rules ∧
              s.applyStops record rules = [(shrink { s with backend := b } i record rules).2]) ∨
            shrinkable? s.ledger record rules = none ∧
              ∃ worked, worked = work { s with backend := b } (.apply record rules) ∧
                s.apply record rules = settle worked ∧
                s.applyStops record rules =
                  respliceStops (placed { s with backend := b } record rules) record.direction
                      (rebuildStart s.ledger record rules) ++
                    [(worked.2.updateDefault .incoming).2, worked.2.updateDefaults.2])) := by
  obtain ⟨b, hs, halive | ⟨e, hdead⟩⟩ := checkAlive_cases s
  · refine ⟨b, hs, .inr ⟨halive, ?_⟩⟩
    simp only [apply, applyStops, halive]
    cases hquiet : shrinkable? s.ledger record rules with
    | some i => exact .inl ⟨i, rfl, rfl, rfl⟩
    | none => exact .inr ⟨rfl, _, rfl, rfl, rfl⟩
  · refine ⟨b, hs, .inl ⟨e, hdead, ?_⟩⟩
    simp only [apply, applyStops, hdead, and_self]

theorem apply_mem_stops (s : Site) (record : Record) (rules : List Rule) :
    (s.apply record rules).2 ∈ s.applyStops record rules := by
  obtain ⟨b, -, ⟨e, -, happly, hstops⟩ | ⟨-, ⟨i, -, happly, hstops⟩ |
    ⟨-, worked, -, happly, hstops⟩⟩⟩ := apply_cases s record rules <;> rw [happly, hstops]
  · exact List.mem_singleton_self _
  · exact List.mem_singleton_self _
  · exact List.mem_append_right _ (List.mem_cons_of_mem _ List.mem_cons_self)

end Site

namespace Backend

variable {b b' b'' : Backend} {name : String} {call : Call} {r : Except BackendError Unit}

/-! ### Parts commit at their end -/

def Quiet (b b' : Backend) : Prop :=
  ∃ new, b'.log = new ++ b.log ∧ ∀ e ∈ new, e.call.isCommit = false

def CommitsLast (b b' : Backend) : Prop :=
  ∃ new, b'.log = new ++ b.log ∧ ∀ e ∈ new.tail, e.call.isCommit = false

theorem Quiet.refl (b : Backend) : Quiet b b := ⟨[], rfl, by simp⟩

theorem Quiet.perform (h : Quiet b b') (hperform : b'.perform name call = (r, b''))
    (hcall : call.isCommit = false) : Quiet b b'' := by
  obtain ⟨new, hlog, hnew⟩ := h
  refine ⟨⟨name, call, r.toBool⟩ :: new, by rw [log_perform hperform, hlog]; rfl, ?_⟩
  exact List.forall_mem_cons.2 ⟨hcall, hnew⟩

theorem Quiet.read (h : Quiet b b') {c : Chain} {r : Except BackendError (List Rule)}
    (hread : b'.read name c = (r, b'')) : Quiet b b'' := by
  unfold Backend.read at hread
  split at hread <;> rename_i hp <;> obtain ⟨-, rfl⟩ := Prod.mk.inj hread <;> exact h.perform hp rfl

theorem Quiet.find (h : Quiet b b') {r : Except BackendError Bool}
    (hfind : b'.find name = (r, b'')) : Quiet b b'' := by
  unfold Backend.find at hfind
  split at hfind <;> rename_i hp <;> obtain ⟨-, rfl⟩ := Prod.mk.inj hfind <;> exact h.perform hp rfl

theorem Quiet.commitsLast (h : Quiet b b') : CommitsLast b b' := by
  obtain ⟨new, hlog, hnew⟩ := h
  exact ⟨new, hlog, fun e he => hnew e (List.mem_of_mem_tail he)⟩

theorem Quiet.last (h : Quiet b b') (hperform : b'.perform name call = (r, b'')) :
    CommitsLast b b'' := by
  obtain ⟨new, hlog, hnew⟩ := h
  exact ⟨⟨name, call, r.toBool⟩ :: new, by rw [log_perform hperform, hlog]; rfl, hnew⟩

end Backend

namespace Site

open Backend (Quiet CommitsLast)

variable {s s' s'' : Site} {stops stops' : List Site}

theorem quiet_deleteEach (d : Direction) (rules : List Rule) (out : Deletion) {b : Backend}
    (h : Quiet b s.backend) : Quiet b (deleteEach d rules out s).2.backend := by
  induction rules generalizing out s with
  | nil => exact h
  | cons r rest ih =>
    unfold deleteEach
    split <;> rename_i hdelete <;> exact ih _ (h.perform hdelete rfl)

theorem commitsLast_remove (s : Site) (d : Direction) (rules : List Rule) :
    CommitsLast s.backend (s.remove d rules).2.backend := by
  unfold remove
  split
  · exact (Quiet.refl _).commitsLast
  · have hs := quiet_deleteEach d (Rule.sortDown rules) ⟨[], false⟩ (.refl s.backend)
    split
    rename_i out s' hdeleted
    rw [hdeleted] at hs
    split
    · exact hs.last rfl
    · exact hs.commitsLast

theorem commitsLast_inject (s : Site) (d : Direction) (rules : List Rule) :
    CommitsLast s.backend (s.inject d rules).2.backend := by
  unfold inject
  split
  · exact (Quiet.refl _).commitsLast
  · split <;> rename_i hread <;> have hs := (Quiet.refl s.backend).read hread
    · exact hs.commitsLast
    · dsimp only
      split <;> rename_i happend <;> have hs' := hs.perform happend rfl
      · exact hs'.commitsLast
      · exact hs'.last rfl

theorem commitsLast_updateDefault (s : Site) (d : Direction) :
    CommitsLast s.backend (s.updateDefault d).2.backend := by
  rcases updateDefault_cases s d with ⟨-, hs⟩ | ⟨-, ⟨e, b, hset, hs⟩ | ⟨b, hset, hcommit⟩⟩
  · rw [hs]
    exact (Quiet.refl _).commitsLast
  · rw [hs]
    exact (Quiet.refl _).last hset
  · have hb := (Quiet.refl _).perform hset rfl
    rcases hcommit with ⟨e, b', hcommit, hs⟩ | ⟨b', hcommit, hs⟩ <;> rw [hs] <;>
      exact hb.last hcommit

theorem quiet_checkAlive (s : Site) : Quiet s.backend s.checkAlive.2.backend := by
  unfold checkAlive
  split <;> exact (Quiet.refl _).find ‹_›

/-! ### Every commit is the last call at a stop -/

/-- Whether all commits that were made between two states are last calls at some
stops. -/
def Covered (stops : List Site) (s s' : Site) : Prop :=
  ∀ later e earlier, s'.backend.log = later ++ e :: earlier → e.call.isCommit = true →
    s.backend.log.length ≤ earlier.length → ∃ m ∈ stops, m.backend.log = e :: earlier

theorem mem_of_suffix_append {α : Type} {l m earlier : List α} {e : α}
    (h : e :: earlier <:+ l ++ m) (hlong : m.length ≤ earlier.length) : e ∈ l := by
  obtain ⟨mid, hmid⟩ := h
  rcases List.append_eq_append_iff.1 hmid with ⟨t, rfl, ht⟩ | ⟨t, -, ht⟩
  · cases t with
    | nil =>
      have hlen := congrArg List.length ht
      rw [List.nil_append, List.length_cons] at hlen
      omega
    | cons e' t =>
      obtain ⟨rfl, -⟩ := List.cons.inj ht
      simp
  · have hlen := congrArg List.length ht
    rw [List.length_append, List.length_cons] at hlen
    omega

theorem covered_of_quiet (h : Quiet s.backend s'.backend) : Covered [] s s' := by
  obtain ⟨new, hlog, hnew⟩ := h
  intro later e earlier hsplit hcommit hlong
  have hmem : e ∈ new := mem_of_suffix_append ⟨later, hsplit.symm.trans hlog⟩ hlong
  rw [hnew e hmem] at hcommit
  cases hcommit

theorem covered_of_commitsLast (h : CommitsLast s.backend s'.backend) : Covered [s'] s s' := by
  obtain ⟨new, hlog, hnew⟩ := h
  intro later e earlier hsplit hcommit hlong
  refine ⟨s', List.mem_singleton_self _, ?_⟩
  cases later with
  | nil => exact hsplit
  | cons e' later =>
    -- the commit would be one of the calls before the last one
    have hmem : e ∈ new.tail := by
      cases new with
      | nil =>
        have hlen := congrArg List.length (hsplit.symm.trans hlog)
        simp only [List.nil_append, List.length_append, List.length_cons] at hlen
        omega
      | cons e'' new =>
        rw [hsplit, List.cons_append, List.cons_append, List.cons.injEq] at hlog
        exact mem_of_suffix_append ⟨later, hlog.2⟩ hlong
    rw [hnew e hmem] at hcommit
    cases hcommit

theorem Covered.append (h : Covered stops s s') (h' : Covered stops' s' s'')
    (hlater : Later s' s'') : Covered (stops ++ stops') s s'' := by
  obtain ⟨-, new, hnew⟩ := hlater
  intro later e earlier hsplit hcommit hlong
  by_cases hold : s'.backend.log.length ≤ earlier.length
  · obtain ⟨m, hm, hlog⟩ := h' later e earlier hsplit hcommit hold
    exact ⟨m, List.mem_append_right _ hm, hlog⟩
  · -- the commit was made before the second part began
    have hsuffix : e :: earlier <:+ s''.backend.log := ⟨later, hsplit.symm⟩
    have hsuffix := List.suffix_of_suffix_length_le hsuffix ⟨new, hnew.symm⟩
      (by rw [List.length_cons]; omega)
    obtain ⟨mid, hmid⟩ := hsuffix
    obtain ⟨m, hm, hlog⟩ := h mid e earlier hmid.symm hcommit hlong
    exact ⟨m, List.mem_append_left _ hm, hlog⟩

theorem covered_ceaseRules (s : Site) (name : String) :
    Covered (s.ceaseStops name) s (s.ceaseRules name).2 := by
  unfold ceaseStops
  cases hknown : s.ledger.rules.get? name with
  | none =>
    refine covered_of_quiet ?_
    simp only [ceaseRules, hknown]
    exact .refl _
  | some known =>
    rw [ceaseRules_snd hknown]
    exact (covered_of_commitsLast (commitsLast_remove _ _ _)).append
      (covered_of_commitsLast (commitsLast_remove _ _ _))
      ((stable_later _).remove _ _ (.refl _))

theorem covered_ceaseEach (names : List String) (out : Outcome) (s : Site) :
    Covered (ceaseEachStops names s) s (ceaseEach names out s).2 := by
  induction names generalizing out s with
  | nil => exact covered_of_quiet (.refl _)
  | cons name rest ih =>
    exact (covered_ceaseRules s name).append (ih _ _)
      ((stable_later _).ceaseEach (.refl _) rest _)

theorem covered_injectEach (d : Direction) (applied : List Applied) (s : Site) :
    Covered (injectEachStops d applied s) s (injectEach d applied s).2 := by
  induction applied generalizing s with
  | nil => exact covered_of_quiet (.refl _)
  | cons a rest ih =>
    have hs := commitsLast_inject s d a.rules
    rcases hinject : s.inject d a.rules with ⟨e | added, s'⟩ <;> rw [hinject] at hs <;>
      simp only [injectEachStops, injectEach, hinject]
    · exact covered_of_commitsLast hs
    · have hstop : Covered [{ s' with ledger := s'.ledger.record a.record.name d added }] s
          { s' with ledger := s'.ledger.record a.record.name d added } := covered_of_commitsLast hs
      exact hstop.append (ih _) ((stable_later _).injectEach (.refl _) d rest)

theorem covered_resplice (s : Site) (d : Direction) (start : Nat) :
    Covered (s.respliceStops d start) s (s.resplice d start).2 := by
  have hs := covered_ceaseEach (((s.ledger.applied.get d).drop start).map (·.record.name))
    (.ok ()) s
  rcases hceased : ceaseEach (((s.ledger.applied.get d).drop start).map (·.record.name)) (.ok ()) s
    with ⟨e | ⟨⟨⟩⟩, s'⟩ <;> rw [hceased] at hs <;> simp only [respliceStops, resplice, hceased]
  · rw [List.append_nil]
    exact hs
  · exact hs.append (covered_injectEach d _ s') ((stable_later _).injectEach (.refl _) d _)

theorem covered_shrink (s : Site) (i : Nat) (record : Record) (rules : List Rule) :
    Covered [(s.shrink i record rules).2] s (s.shrink i record rules).2 := by
  have hlast : CommitsLast s.backend (s.shrink i record rules).2.backend :=
    commitsLast_remove _ record.direction _
  exact covered_of_commitsLast hlast

theorem covered_updateDefaults (s : Site) :
    Covered [(s.updateDefault .incoming).2, s.updateDefaults.2] s s.updateDefaults.2 :=
  (covered_of_commitsLast (commitsLast_updateDefault s .incoming)).append
    (covered_of_commitsLast (commitsLast_updateDefault _ .outgoing))
    ((stable_later _).updateDefault .outgoing (.refl _))

/-- All commits that an apply makes are made at its stops. -/
theorem covered_apply (s : Site) (record : Record) (rules : List Rule) :
    Covered (s.applyStops record rules) s (s.apply record rules).2 := by
  have hquiet := quiet_checkAlive s
  obtain ⟨b, -, ⟨e, hdead, happly, hstops⟩ | ⟨halive, hcases⟩⟩ := apply_cases s record rules
  · rw [hdead] at hquiet
    rw [happly, hstops]
    exact covered_of_commitsLast hquiet.commitsLast
  · rw [halive] at hquiet
    rcases hcases with ⟨i, -, happly, hstops⟩ | ⟨-, worked, rfl, happly, hstops⟩ <;>
      rw [happly, hstops]
    · exact (covered_of_quiet hquiet).append (covered_shrink _ i record rules)
        ((stable_later _).remove _ _ (.refl _))
    · have hplaced : Covered [] s (placed { s with backend := b } record rules) :=
        covered_of_quiet hquiet
      have hspliced := hplaced.append
        (covered_resplice _ record.direction (rebuildStart s.ledger record rules))
        ((stable_later _).resplice (.refl _) _ _)
      exact hspliced.append (covered_updateDefaults _)
        ((stable_later _).updateDefaults (.refl _))

/-! ### Layouts at stops -/

variable {U : PerDirection Layout}

/-- Whether layouts came about by taking out names of applied records, and, once
all of them were out, by appending the entries of the first ones again. -/
def Rebuilding (d : Direction) (tail : List Applied) (U V : PerDirection Layout) : Prop :=
  (∀ d', Layout.Thinned (Layout.ofNames (tail.map (·.record.name))) (U.get d') (V.get d')) ∨
    ∃ k, Respliced d tail k U V

theorem Laid.ceaseStops (hU : s.Laid U) (name : String) :
    ∀ m ∈ s.ceaseStops name, ∃ V, m.Laid V ∧
      ∀ d, Layout.Thinned (Layout.ofName name) (U.get d) (V.get d) := by
  intro m hm
  obtain ⟨V, hV, hthin, -⟩ := hU.ceaseRules name
  unfold Site.ceaseStops at hm
  split at hm
  · cases hm
  · rename_i known hknown
    rcases List.mem_cons.1 hm with rfl | hm
    · have hrecorded : known.incoming = (U.get .incoming).chosen (Layout.ofName name) := by
        rw [← hU.records.recorded, Ledger.recorded_eq hknown]
        rfl
      obtain ⟨W, hW, hthin', -⟩ := hU.remove .incoming (Layout.ofName name)
      rw [← hrecorded] at hW
      refine ⟨_, hW, fun d => ?_⟩
      cases d
      · exact hthin'
      · exact .refl _ _
    · rw [List.mem_singleton.1 hm]
      exact ⟨V, hV, hthin⟩

theorem Laid.ceaseEachStops (hU : s.Laid U) (names : List String) :
    ∀ m ∈ ceaseEachStops names s, ∃ V, m.Laid V ∧
      ∀ d, Layout.Thinned (Layout.ofNames names) (U.get d) (V.get d) := by
  induction names generalizing s U with
  | nil => simp [Site.ceaseEachStops]
  | cons name rest ih =>
    intro m hm
    have hfirst {L M : Layout} (h : Layout.Thinned (Layout.ofName name) L M) :
        Layout.Thinned (Layout.ofNames (name :: rest)) L M := h.mono fun e he => by
      rw [Layout.passes_ofName, beq_iff_eq] at he
      simp [he]
    rcases List.mem_append.1 hm with hm | hm
    · obtain ⟨V, hV, hthin⟩ := hU.ceaseStops name m hm
      exact ⟨V, hV, fun d => hfirst (hthin d)⟩
    · obtain ⟨V, hV, hthin, -⟩ := hU.ceaseRules name
      obtain ⟨W, hW, hthin'⟩ := ih hV m hm
      refine ⟨W, hW, fun d => (hfirst (hthin d)).trans ((hthin' d).mono fun e he => ?_)⟩
      cases hn : e.1 <;> simp_all

theorem Laid.injectEachStops (hU : s.Laid U) (d : Direction) (applied : List Applied) :
    ∀ m ∈ injectEachStops d applied s, ∃ k,
      m.Laid (U.set d (U.get d ++ entriesOf (applied.take k))) := by
  induction applied generalizing s U with
  | nil => simp [Site.injectEachStops]
  | cons a rest ih =>
    intro m hm
    rcases hinject : s.inject d a.rules with ⟨e | added, s'⟩ <;>
      simp only [Site.injectEachStops, hinject] at hm <;>
        have hledger : s'.ledger = s.ledger := by rw [← inject_ledger s d a.rules, hinject]
    · obtain rfl := List.mem_singleton.1 hm
      have hstep := hU.inject_error (l := s.ledger) hinject
      rw [← hledger] at hstep
      exact ⟨0, by simpa using hstep⟩
    · have hstep := hU.inject_ok (l := s.ledger) hinject a.record.name
      rw [← hledger] at hstep
      rcases List.mem_cons.1 hm with rfl | hm
      · exact ⟨1, by simpa using hstep⟩
      · obtain ⟨k, hk⟩ := ih hstep m hm
        refine ⟨k + 1, ?_⟩
        rw [PerDirection.set_set, PerDirection.get_set_self, List.append_assoc] at hk
        rw [List.take_succ_cons, entriesOf_cons]
        exact hk

theorem Laid.respliceStops (hU : s.Laid U) (d : Direction) (start : Nat) :
    ∀ m ∈ s.respliceStops d start, ∃ V, m.Laid V ∧
      Rebuilding d ((s.ledger.applied.get d).drop start) U V := by
  intro m hm
  rcases List.mem_append.1 hm with hm | hm
  · obtain ⟨V, hV, hthin⟩ := hU.ceaseEachStops _ m hm
    exact ⟨V, hV, .inl hthin⟩
  · obtain ⟨V, hV, hthin, hgone⟩ := hU.ceaseEach
      (((s.ledger.applied.get d).drop start).map (·.record.name)) (.ok ())
    split at hm
    · cases hm
    · rename_i s' hceased
      rw [hceased] at hV hgone
      obtain ⟨k, hk⟩ := hV.injectEachStops d _ m hm
      refine ⟨_, hk, .inr ⟨k, ?_, fun d' hd => ?_⟩⟩
      · rw [PerDirection.get_set_self, (hthin d).eq_of_none ((hgone rfl).2 d)]
      · rw [PerDirection.get_set_of_ne _ _ hd, (hthin d').eq_of_none ((hgone rfl).2 d')]

/-- At each stop of an apply the layouts are as they were, or the record lost
rules that it does not need any more, or the chain is being rebuilt from the
place of the record on. -/
theorem Laid.applyStops (hU : s.Laid U) (record : Record) (rules : List Rule) :
    ∀ m ∈ s.applyStops record rules, ∃ V, m.Laid V ∧
      (V = U ∨
        ((shrinkable? s.ledger record rules).isSome = true ∧
          ∃ W, V = U.set record.direction W ∧
            Layout.Thinned (stale record.name rules) (U.get record.direction) W) ∨
        (shrinkable? s.ledger record rules = none ∧
          Rebuilding record.direction (rebuiltPart s.ledger record rules) U V)) := by
  intro m hm
  have hchecked := hU.checkAlive
  obtain ⟨b, -, ⟨e, hdead, -, hstops⟩ | ⟨halive, hcases⟩⟩ := apply_cases s record rules
  · rw [hdead] at hchecked
    rw [hstops] at hm
    rw [List.mem_singleton.1 hm]
    exact ⟨U, hchecked, .inl rfl⟩
  rw [halive] at hchecked
  rcases hcases with ⟨i, hquiet, -, hstops⟩ | ⟨hquiet, worked, rfl, -, hstops⟩ <;> rw [hstops] at hm
  · rw [List.mem_singleton.1 hm]
    obtain ⟨W, hW, hthin, -⟩ := hchecked.shrink i record rules
    exact ⟨_, hW, .inr (.inl ⟨by rw [hquiet]; rfl, W, rfl, hthin⟩)⟩
  · have hplaced : Laid (placed { s with backend := b } record rules) U := hchecked.of_rules rfl
    have htail := drop_placed { s with backend := b } record rules
    rcases List.mem_append.1 hm with hm | hm
    · obtain ⟨V, hV, hrebuilt⟩ := hplaced.respliceStops _ _ m hm
      rw [htail] at hrebuilt
      exact ⟨V, hV, .inr (.inr ⟨hquiet, hrebuilt⟩)⟩
    · -- setting default actions leaves the layouts as the work left them
      obtain ⟨V, hV, hcases⟩ := hplaced.resplice record.direction
        (rebuildStart s.ledger record rules)
      rw [htail] at hcases
      have hrebuilt : Rebuilding record.direction (rebuiltPart s.ledger record rules) U V :=
        hcases.elim (fun h => .inl h.2.1) fun ⟨k, h, _⟩ => .inr ⟨k, h⟩
      refine ⟨V, ?_, .inr (.inr ⟨hquiet, hrebuilt⟩)⟩
      rcases List.mem_cons.1 hm with rfl | hm
      · exact hV.updateDefault .incoming
      · rw [List.mem_singleton.1 hm]
        exact hV.updateDefaults

end Site

end PodFirewall
