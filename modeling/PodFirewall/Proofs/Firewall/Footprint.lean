import PodFirewall.Proofs.Firewall.Stops

/-!
The calls that the parts of an operation make. `Site.Edits` says that one state
leads to another by calls that keep to the chain of a direction, so that the
other chain stays as it is, and which rules they delete and append. Each part
edits one chain, and so do parts one after the other: what they delete and append
adds up.
-/

namespace PodFirewall

namespace Call

def keepsTo (c : Chain) : Call → Bool
  | .find => true
  | .read c' | .append c' _ | .delete c' _ | .setDefault c' _ | .commit c' => c' == c
  | .create | .destroy => false

def deletion? : Call → Option Nat
  | .delete _ id => some id
  | _ => none

def addition : Call → List Rule
  | .append _ rules => rules
  | _ => []

def deletions (calls : List Call) : List Nat := calls.filterMap deletion?

def additions (calls : List Call) : List Rule := calls.flatMap addition

@[simp] theorem deletions_append (calls calls' : List Call) :
    deletions (calls ++ calls') = deletions calls ++ deletions calls' := List.filterMap_append

@[simp] theorem additions_append (calls calls' : List Call) :
    additions (calls ++ calls') = additions calls ++ additions calls' := List.flatMap_append

end Call

namespace Backend

/-- A call about one chain leaves the other one as it is. -/
theorem change_of_keepsTo {name : String} {fw fw' : FirewallState} {call : Call} {c c' : Chain}
    (h : change name fw call = .ok fw') (hcall : call.keepsTo c = true) (hc : c' ≠ c) :
    fw'.get c' = fw.get c' := by
  cases call with
  | create | destroy => cases hcall
  | find => cases h; rfl
  | read => cases h; rfl
  | append c'' rules =>
    obtain rfl := beq_iff_eq.1 hcall
    exact (change_append h).2.2 c' hc
  | delete c'' id =>
    obtain rfl := beq_iff_eq.1 hcall
    exact (change_delete h).2 c' hc
  | setDefault c'' action =>
    obtain rfl := beq_iff_eq.1 hcall
    exact (change_setDefault h).2 c' hc
  | commit c'' =>
    obtain rfl := beq_iff_eq.1 hcall
    cases h
    exact PerChain.get_set_of_ne _ _ hc

theorem perform_of_keepsTo {b b' : Backend} {name : String} {call : Call}
    {r : Except BackendError Unit} {c c' : Chain} (h : b.perform name call = (r, b'))
    (hcall : call.keepsTo c = true) (hc : c' ≠ c) :
    (b'.firewalls.get? name).map (·.get c') = (b.firewalls.get? name).map (·.get c') := by
  rcases r with e | ⟨⟨⟩⟩
  · rw [perform_error h]
  · obtain ⟨m, hm, rfl⟩ := perform_ok h
    cases hfw : b.firewalls.get? name with
    | none =>
      -- where there is no firewall, only the question for it is answered
      cases call <;> simp_all [effect, Call.keepsTo]
    | some fw =>
      have hdestroy : call ≠ .destroy := by
        rintro rfl
        cases hcall
      obtain ⟨fw', hchange, hfw'⟩ := effect_of_holds hfw hdestroy hm
      rw [hfw', Option.map_some, Option.map_some, change_of_keepsTo hchange hcall hc]

end Backend

namespace Site

/-- Whether one state leads to another by calls that keep to the chain of a
direction, and delete and append just these rules. -/
structure Edits (d : Direction) (s s' : Site) (gone : List Nat) (added : List Rule) : Prop where
  calls : ∃ calls, s'.backend.log.map (·.call) = calls.reverse ++ s.backend.log.map (·.call) ∧
    (∀ call ∈ calls, call.keepsTo d.chain = true) ∧
    Call.deletions calls = gone ∧ Call.additions calls = added
  other : ∀ c, c ≠ d.chain → s'.held?.map (·.get c) = s.held?.map (·.get c)

namespace Edits

variable {d : Direction} {s s' s'' : Site} {gone gone' : List Nat} {added added' : List Rule}
  {b : Backend}

theorem refl (d : Direction) (s : Site) : Edits d s s [] [] :=
  ⟨⟨[], rfl, by simp, rfl, rfl⟩, fun _ _ => rfl⟩

theorem trans (h : Edits d s s' gone added) (h' : Edits d s' s'' gone' added') :
    Edits d s s'' (gone ++ gone') (added ++ added') := by
  obtain ⟨⟨calls, hlog, hkeeps, rfl, rfl⟩, hother⟩ := h
  obtain ⟨⟨calls', hlog', hkeeps', rfl, rfl⟩, hother'⟩ := h'
  refine ⟨⟨calls ++ calls', ?_, ?_, Call.deletions_append _ _, Call.additions_append _ _⟩,
    fun c hc => (hother' c hc).trans (hother c hc)⟩
  · rw [hlog', hlog, List.reverse_append, List.append_assoc]
  · intro call hcall
    exact (List.mem_append.1 hcall).elim (hkeeps call) (hkeeps' call)

/-- A part that deletes and appends nothing. -/
theorem andThen (h : Edits d s s' gone added) (h' : Edits d s' s'' [] []) :
    Edits d s s'' gone added := by
  have htrans := h.trans h'
  rwa [List.append_nil, List.append_nil] at htrans

theorem ledger (d : Direction) (s : Site) (l : Ledger) : Edits d s { s with ledger := l } [] [] :=
  ⟨⟨[], rfl, by simp, rfl, rfl⟩, fun _ _ => rfl⟩

theorem perform {call : Call} {r : Except BackendError Unit}
    (h : s.backend.perform s.name call = (r, b)) (hcall : call.keepsTo d.chain = true) :
    Edits d s { s with backend := b } call.deletion?.toList call.addition := by
  refine ⟨⟨[call], ?_, by simpa using hcall, ?_, List.flatMap_singleton _ _⟩, fun c hc => ?_⟩
  · rw [Backend.log_perform h]
    rfl
  · cases call <;> rfl
  · exact Backend.perform_of_keepsTo h hcall hc

theorem commit (d : Direction) (s : Site) :
    Edits d s { s with backend := (s.backend.perform s.name (.commit d.chain)).2 } [] [] :=
  perform (Eq.refl (s.backend.perform s.name (.commit d.chain))) (beq_self_eq_true _)

theorem read {r : Except BackendError (List Rule)} (h : s.backend.read s.name d.chain = (r, b)) :
    Edits d s { s with backend := b } [] [] := by
  unfold Backend.read at h
  split at h <;> rename_i hp <;> obtain ⟨-, rfl⟩ := Prod.mk.inj h <;>
    exact perform hp (beq_self_eq_true _)

theorem find {r : Except BackendError Bool} (h : s.backend.find s.name = (r, b)) :
    Edits d s { s with backend := b } [] [] := by
  unfold Backend.find at h
  split at h <;> rename_i hp <;> obtain ⟨-, rfl⟩ := Prod.mk.inj h <;> exact perform hp rfl

theorem checkAlive (d : Direction) (s : Site) : Edits d s s.checkAlive.2 [] [] := by
  unfold Site.checkAlive
  split <;> exact find ‹_›

/-! ### Removing -/

theorem deleteEach (d : Direction) (rules : List Rule) (out : Deletion) (s : Site) :
    Edits d s (Site.deleteEach d rules out s).2 (rules.map (·.id)) [] := by
  induction rules generalizing out s with
  | nil => exact refl d s
  | cons r rest ih =>
    unfold Site.deleteEach
    split <;> rename_i b hdelete
    · exact (perform (s := s) (d := d) hdelete (beq_self_eq_true _)).trans (ih _ _)
    · have hdeleted : Edits d s
          { s with backend := b, ledger := s.ledger.deleted d r.id } [r.id] [] :=
        (perform hdelete (beq_self_eq_true _)).andThen (ledger d { s with backend := b } _)
      exact hdeleted.trans (ih _ _)

theorem remove (d : Direction) (s : Site) (rules : List Rule) :
    Edits d s (s.remove d rules).2 ((Rule.sortDown rules).map (·.id)) [] := by
  unfold Site.remove
  split
  · rename_i hempty
    rw [List.isEmpty_iff.1 hempty]
    exact refl d s
  · have hs := deleteEach d (Rule.sortDown rules) ⟨[], false⟩ s
    split
    rename_i out s' hdeleted
    rw [hdeleted] at hs
    split
    · exact hs.andThen (commit d s')
    · exact hs

/-- Shrinking a record deletes what it has too much, the last rule first. -/
theorem shrink {U : PerDirection Layout} (hU : s.Laid U) (i : Nat) (record : Record)
    (rules : List Rule) :
    Edits record.direction s (s.shrink i record rules).2
      (((s.ledger.recorded record.name record.direction).filter fun r =>
        !rules.any fun x => x.sameMatch r).map (·.id)).reverse [] := by
  have hup : ((s.ledger.recorded record.name record.direction).filter fun r =>
      !rules.any fun x => x.sameMatch r).Pairwise fun a b => a.id < b.id := by
    rw [hU.records.recorded]
    exact (Layout.pairwise_chosen _ _).filter _
  rw [← List.map_reverse, ← Rule.sortDown_eq_reverse hup]
  exact (ledger record.direction s _).trans (remove record.direction _ _)

/-- A name without rules in the other chain is ceased by calls about one
chain. -/
theorem ceaseRules {name : String} (h : ∀ d', d' ≠ d → s.ledger.recorded name d' = []) :
    Edits d s (s.ceaseRules name).2
      ((Rule.sortDown (s.ledger.recorded name d)).map (·.id)) [] := by
  cases hknown : s.ledger.rules.get? name with
  | none =>
    have hsame : (s.ceaseRules name).2 = s := by simp only [Site.ceaseRules, hknown]
    rw [hsame, Ledger.recorded_eq_nil hknown]
    exact refl d s
  | some known =>
    rw [ceaseRules_snd hknown, Ledger.recorded_eq hknown]
    cases d with
    | incoming =>
      have hnone : known.outgoing = [] := by
        rw [← h .outgoing (by decide), Ledger.recorded_eq hknown, PerDirection.get]
      rw [hnone]
      exact remove .incoming s known.incoming
    | outgoing =>
      have hnone : known.incoming = [] := by
        rw [← h .incoming (by decide), Ledger.recorded_eq hknown, PerDirection.get]
      rw [hnone]
      exact remove .outgoing s known.outgoing

/-- Ceasing names that have no entry in the other layout, nor in front of a place
in this one, deletes rules from this place on. -/
theorem ceaseEach {U : PerDirection Layout} {P Q : Layout} {names : List String} {out : Outcome}
    (hU : s.Laid U) (hsplit : U.get d = P ++ Q)
    (hfront : ∀ e ∈ P, Layout.passes (Layout.ofNames names) e = false)
    (hother : ∀ d', d' ≠ d → ∀ e ∈ U.get d', Layout.passes (Layout.ofNames names) e = false)
    (hok : (Site.ceaseEach names out s).1 = .ok ()) :
    ∃ gone, Edits d s (Site.ceaseEach names out s).2 gone [] ∧
      ∀ id ∈ gone, P.length ≤ id ∧ id < P.length + Q.length := by
  induction names generalizing out s U Q with
  | nil => exact ⟨[], refl d s, by simp⟩
  | cons name rest ih =>
    obtain ⟨V, hV, hthin, hgone⟩ := hU.ceaseRules name
    obtain ⟨W, -, -, hceased⟩ := hV.ceaseEach rest (out.later (s.ceaseRules name).1)
    have hfirst := (Outcome.later_eq_ok.1 (hceased hok).1).2
    have hnames {e : Option String × Rule}
        (he : Layout.passes (Layout.ofNames (name :: rest)) e = false) :
        Layout.passes (Layout.ofName name) e = false ∧
          Layout.passes (Layout.ofNames rest) e = false := by
      cases hn : e.1 <;> simp_all
    have hleft (d' : Direction) := (hthin d').eq_of_none (hgone hfirst d')
    -- what is in front of the place stays, so the place is the same for the other names
    have hsplit' : V.get d =
        P ++ Q.filter fun e => !Layout.passes (Layout.ofName name) e := by
      rw [hleft, hsplit, List.filter_append, List.filter_eq_self.2 fun e he => by
        rw [(hnames (hfront e he)).1]; rfl]
    have hnone (d' : Direction) (hd : d' ≠ d) : s.ledger.recorded name d' = [] := by
      rw [hU.records.recorded, Layout.chosen_eq_nil_iff, List.filter_eq_nil_iff]
      intro e he
      rw [(hnames (hother d' hd e he)).1]
      exact Bool.false_ne_true
    obtain ⟨gone, hrest, hbounds⟩ := ih hV hsplit' (fun e he => (hnames (hfront e he)).2)
      (fun d' hd e he => (hnames (hother d' hd e ((hthin d').sublist.subset he))).2) hok
    refine ⟨_, (ceaseRules hnone).trans hrest, fun id hid => ?_⟩
    rcases List.mem_append.1 hid with hid | hid
    · obtain ⟨r, hr, rfl⟩ := List.mem_map.1 hid
      rw [(Rule.sortDown_perm _).mem_iff, hU.records.recorded, hsplit] at hr
      obtain ⟨e, he, hpass, -⟩ := Layout.mem_chosen.1 hr
      obtain ⟨hlt, -⟩ := List.getElem?_eq_some_iff.1 he
      refine ⟨Nat.le_of_not_lt fun hP => ?_, by rwa [List.length_append] at hlt⟩
      rw [List.getElem?_append_left hP] at he
      rw [(hnames (hfront e (List.mem_of_getElem? he))).1] at hpass
      cases hpass
    · obtain ⟨hle, hlt⟩ := hbounds id hid
      have hfewer := (List.filter_sublist
        (p := fun e => !Layout.passes (Layout.ofName name) e) (l := Q)).length_le
      exact ⟨hle, by omega⟩

/-! ### Appending -/

theorem inject {rules : List Rule} (h : s.inject d rules = (.ok added, s')) :
    Edits d s s' [] added := by
  unfold Site.inject at h
  split at h
  · obtain ⟨hadded, rfl⟩ := Prod.mk.inj h
    obtain rfl := Except.ok.inj hadded
    exact refl d s
  · split at h
    · cases h
    · rename_i listing b hread
      have hs := read hread
      dsimp only at h
      split at h
      · cases h
      · rename_i b' happend
        obtain ⟨hadded, rfl⟩ := Prod.mk.inj h
        obtain rfl := Except.ok.inj hadded
        have happended := hs.trans
          (perform (s := { s with backend := b }) (d := d) happend (beq_self_eq_true _))
        exact happended.andThen (commit d { s with backend := b' })

end Edits

/-- Rules are appended under the numbers from the end of the layout on. -/
theorem Laid.inject_added {s s' : Site} {U : PerDirection Layout} {d : Direction}
    {rules added : List Rule} (hU : s.Laid U) (h : s.inject d rules = (.ok added, s')) :
    added = Rule.numberFrom (U.get d).length rules := by
  have hrecorded := (hU.inject_ok (l := s.ledger) h "").records.recorded "" d
  rw [Ledger.recorded_record_self, hU.records.recorded, PerDirection.get_set_self,
    Layout.chosen_append, if_pos rfl] at hrecorded
  exact List.append_cancel_left hrecorded

namespace Edits

variable {d : Direction} {s : Site}

/-- Appending applied records numbers their rules one after the other. -/
theorem injectEach {U : PerDirection Layout} {applied : List Applied} (hU : s.Laid U)
    (hok : (Site.injectEach d applied s).1 = .ok ()) :
    Edits d s (Site.injectEach d applied s).2 []
      (Rule.numberFrom (U.get d).length (applied.flatMap (·.rules))) := by
  induction applied generalizing s U with
  | nil => exact refl d s
  | cons a rest ih =>
    unfold Site.injectEach at hok ⊢
    split at hok
    · cases hok
    · rename_i added s' hinject
      have hledger : s'.ledger = s.ledger := by
        rw [← inject_ledger s d a.rules, hinject]
      have hstep := hU.inject_ok (l := s.ledger) hinject a.record.name
      obtain rfl := hU.inject_added hinject
      rw [← hledger] at hstep
      have hall := ((inject hinject).andThen (ledger d s' _)).trans (ih hstep hok)
      rw [PerDirection.get_set_self, List.length_append, List.length_map, List.nil_append,
        ← Rule.numberFrom_append] at hall
      rw [List.flatMap_cons]
      exact hall

/-- If the entries of the rebuilt records are those from a place on, only rules
from this place on are deleted, and those of the rebuilt records are appended
there. -/
theorem resplice {U : PerDirection Layout} {P Q : Layout} {start : Nat} {tail : List Applied}
    (htail : (s.ledger.applied.get d).drop start = tail) (hU : s.Laid U)
    (hsplit : U.get d = P ++ Q)
    (hfront : ∀ e ∈ P, Layout.passes (Layout.ofNames (tail.map (·.record.name))) e = false)
    (hback : ∀ e ∈ Q, Layout.passes (Layout.ofNames (tail.map (·.record.name))) e = true)
    (hother : ∀ d', d' ≠ d → ∀ e ∈ U.get d',
      Layout.passes (Layout.ofNames (tail.map (·.record.name))) e = false)
    (hok : (s.resplice d start).1 = .ok ()) :
    ∃ gone V, Edits d s (s.resplice d start).2 gone
        (Rule.numberFrom P.length (tail.flatMap (·.rules))) ∧
      (∀ id ∈ gone, P.length ≤ id ∧ id < P.length + Q.length) ∧
      (s.resplice d start).2.Laid V ∧ V.get d = P ++ entriesOf tail := by
  unfold Site.resplice at hok ⊢
  rw [htail] at hok ⊢
  dsimp only at hok ⊢
  split at hok
  · cases hok
  · rename_i s' hceased
    have hall : (Site.ceaseEach (tail.map (·.record.name)) (.ok ()) s).1 = .ok () := by rw [hceased]
    obtain ⟨gone, hgone, hbounds⟩ := ceaseEach hU hsplit hfront hother hall
    obtain ⟨V, hV, hthin, hnone⟩ := hU.ceaseEach (tail.map (·.record.name)) (.ok ())
    have hleft : V.get d = P := by
      rw [(hthin d).eq_of_none ((hnone hall).2 d), hsplit,
        List.filter_append, List.filter_eq_self.2 fun e he => by rw [hfront e he]; rfl,
        List.filter_eq_nil_iff.2 fun e he => by simp [hback e he], List.append_nil]
    rw [hceased] at hgone hV
    obtain ⟨k, hk, hlength⟩ := hV.injectEach d tail
    rw [hleft, List.take_of_length_le (hlength hok)] at hk
    have hinjected := injectEach hV hok
    rw [hleft] at hinjected
    have hedits := hgone.trans hinjected
    rw [List.append_nil, List.nil_append] at hedits
    exact ⟨gone, _, hedits, hbounds, hk, PerDirection.get_set_self _ _ _⟩

/-! ### Setting default actions -/

theorem updateDefault (d : Direction) (s : Site) : Edits d s (s.updateDefault d).2 [] [] := by
  rcases updateDefault_cases s d with ⟨-, h⟩ | ⟨-, ⟨e, b, hset, h⟩ | ⟨b, hset, hcommit⟩⟩
  · rw [h]
    exact refl d s
  · rw [h]
    exact perform hset (beq_self_eq_true _)
  · have hs : Edits d s { s with backend := b } [] [] := perform hset (beq_self_eq_true _)
    rcases hcommit with ⟨e, b', hcommit, h⟩ | ⟨b', hcommit, h⟩
    · rw [h]
      exact hs.andThen (perform (s := { s with backend := b }) hcommit (beq_self_eq_true _))
    · rw [h]
      have hs' := hs.andThen
        (perform (s := { s with backend := b }) hcommit (beq_self_eq_true _))
      exact hs'.andThen (ledger d _ _)

end Edits

/-- A default action that is known to be set is left alone. -/
theorem updateDefault_of_remembered {s : Site} {d : Direction} (h : s.Remembered d) :
    s.updateDefault d = (.ok (), s) := by
  rcases updateDefault_cases s d with ⟨-, hsame⟩ | ⟨hnot, -⟩
  · exact hsame
  · exact absurd h hnot

theorem Remembered.updateDefault_of_ne {s : Site} {d d' : Direction} (h : s.Remembered d')
    (hd : d' ≠ d) : (s.updateDefault d).2.Remembered d' := by
  rw [Remembered, due_congr (tuned_updateDefault s d).applied, ← h]
  rcases updateDefault_cases s d with
    ⟨-, hs⟩ | ⟨-, ⟨e, b, -, hs⟩ | ⟨b, -, ⟨e, b', -, hs⟩ | ⟨b', -, hs⟩⟩⟩ <;> rw [hs]
  -- only the default action of the direction is set
  exact PerDirection.get_set_of_ne _ _ hd

theorem updateDefaults_snd (s : Site) :
    s.updateDefaults.2 = ((s.updateDefault .incoming).2.updateDefault .outgoing).2 := rfl

theorem Edits.updateDefaults {s : Site} {d : Direction} (h : ∀ d', d' ≠ d → s.Remembered d') :
    Edits d s s.updateDefaults.2 [] [] := by
  cases d with
  | incoming =>
    have hout : (s.updateDefault .incoming).2.Remembered .outgoing :=
      (h .outgoing nofun).updateDefault_of_ne nofun
    rw [updateDefaults_snd, updateDefault_of_remembered hout]
    exact .updateDefault .incoming s
  | outgoing =>
    rw [updateDefaults_snd, updateDefault_of_remembered (h .incoming nofun)]
    exact .updateDefault .outgoing s

/-! ### Operations -/

def calls (s : Site) (o : Operation) : List Call :=
  let log := (s.step o).2.backend.log
  ((log.take (log.length - s.backend.log.length)).map (·.call)).reverse

theorem Edits.calls_eq {s : Site} {o : Operation} {d : Direction} {gone : List Nat}
    {added : List Rule} (h : Edits d s (s.step o).2 gone added) :
    (∀ call ∈ s.calls o, call.keepsTo d.chain = true) ∧
      Call.deletions (s.calls o) = gone ∧ Call.additions (s.calls o) = added := by
  obtain ⟨⟨calls, hlog, hcalls⟩, -⟩ := h
  have hlength := congrArg List.length hlog
  rw [List.length_append, List.length_map, List.length_map, List.length_reverse] at hlength
  have hsame : s.calls o = calls := by
    rw [Site.calls, List.map_take, hlog, hlength, Nat.add_sub_cancel, ← List.length_reverse,
      List.take_left, List.reverse_reverse]
  rwa [hsame]

end Site

end PodFirewall
