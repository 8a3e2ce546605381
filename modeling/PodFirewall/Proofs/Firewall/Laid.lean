import PodFirewall.Firewall.Site
import PodFirewall.Proofs.Backend.Calls

/-!
Sites whose chains and ledger follow layouts. `Site.Laid` says that one layout
for each direction accounts for both: the chain holds its rules in order, and
the ledger records each of them under its name and under no other. The ledger
is exact as long as this holds.
-/

namespace PodFirewall

namespace Ledger

/-! ### What is recorded -/

theorem recorded_eq_nil {l : Ledger} {name : String} (h : l.rules.get? name = none)
    (d : Direction) : l.recorded name d = [] := by
  simp [recorded, h]

theorem recorded_eq {l : Ledger} {name : String} {p : PerDirection (List Rule)}
    (h : l.rules.get? name = some p) (d : Direction) : l.recorded name d = p.get d := by
  simp [recorded, h]

/-- A name without a record counts as one with an empty record. -/
theorem recorded_eq_get (l : Ledger) (name : String) (d : Direction) :
    l.recorded name d = ((l.rules.get? name).getD ⟨[], []⟩).get d := by
  rw [recorded]
  cases l.rules.get? name with
  | none => cases d <;> rfl
  | some p => rfl

theorem recorded_record_self (l : Ledger) (name : String) (d : Direction) (added : List Rule) :
    (l.record name d added).recorded name d = l.recorded name d ++ added := by
  unfold record
  split
  · rename_i h
    rw [List.isEmpty_iff.1 h, List.append_nil]
  · rw [recorded_eq_get, OrdMap.get?_insert_self, Option.getD_some, PerDirection.get_modify_self,
      ← recorded_eq_get]

theorem recorded_record_of_ne (l : Ledger) {name name' : String} {d d' : Direction}
    (added : List Rule) (h : name' ≠ name ∨ d' ≠ d) :
    (l.record name d added).recorded name' d' = l.recorded name' d' := by
  unfold record
  split
  · rfl
  · by_cases hn : name' = name
    · subst hn
      have hd : d' ≠ d := h.resolve_left fun hne => hne rfl
      rw [recorded_eq_get, OrdMap.get?_insert_self, Option.getD_some,
        PerDirection.get_modify_of_ne _ _ hd, ← recorded_eq_get]
    · rw [recorded, OrdMap.get?_insert_of_ne _ _ hn, ← recorded]

theorem record_applied (l : Ledger) (name : String) (d : Direction) (added : List Rule) :
    (l.record name d added).applied = l.applied := by
  unfold record
  split <;> rfl

theorem record_defaults (l : Ledger) (name : String) (d : Direction) (added : List Rule) :
    (l.record name d added).defaults = l.defaults := by
  unfold record
  split <;> rfl

/-- What a deletion leaves of a name in both directions. -/
theorem get?_deleted (l : Ledger) (d : Direction) (id : Nat) (name : String) :
    (l.deleted d id).rules.get? name =
      ((l.rules.get? name).map fun p => p.modify d (without id)).filter fun p => !isBare p := by
  cases h : (l.deleted d id).rules.get? name with
  | some p =>
    rw [deleted, OrdMap.get?_filter_eq_some_iff, OrdMap.get?_map] at h
    rw [h.1, Option.filter_some, if_pos h.2]
  | none =>
    rw [eq_comm, Option.filter_eq_none_iff]
    intro p hp hbare
    have hsome : (l.deleted d id).rules.get? name = some p := by
      rw [deleted, OrdMap.get?_filter_eq_some_iff, OrdMap.get?_map]
      exact ⟨hp, hbare⟩
    rw [h] at hsome
    cases hsome

theorem get_of_isBare {p : PerDirection (List Rule)} (h : isBare p = true) (d : Direction) :
    p.get d = [] := by
  simp only [isBare, Bool.and_eq_true, List.isEmpty_iff] at h
  cases d
  · exact h.1
  · exact h.2

theorem recorded_deleted (l : Ledger) (d : Direction) (id : Nat) (name : String) (d' : Direction) :
    (l.deleted d id).recorded name d' =
      ((l.rules.get? name).map fun p => (p.modify d (without id)).get d').getD [] := by
  rw [recorded, get?_deleted]
  cases l.rules.get? name with
  | none => rfl
  | some p =>
    rw [Option.map_some, Option.filter_some, Option.map_some, Option.getD_some]
    split
    · rfl
    · rename_i h
      rw [get_of_isBare (by simpa using h)]
      rfl

theorem recorded_deleted_self (l : Ledger) (d : Direction) (id : Nat) (name : String) :
    (l.deleted d id).recorded name d = without id (l.recorded name d) := by
  rw [recorded_deleted, recorded]
  cases l.rules.get? name with
  | none => rfl
  | some p => simp

theorem recorded_deleted_of_ne (l : Ledger) {d d' : Direction} (id : Nat) (name : String)
    (h : d' ≠ d) : (l.deleted d id).recorded name d' = l.recorded name d' := by
  rw [recorded_deleted, recorded]
  simp only [PerDirection.get_modify_of_ne _ _ h]

def NoneBare (l : Ledger) : Prop := ∀ name p, l.rules.get? name = some p → isBare p = false

theorem NoneBare.deleted {l : Ledger} (d : Direction) (id : Nat) : (l.deleted d id).NoneBare := by
  intro name p h
  rw [get?_deleted, Option.filter_eq_some_iff] at h
  simpa using h.2

theorem NoneBare.record {l : Ledger} (hl : l.NoneBare) (name : String) (d : Direction)
    (added : List Rule) : (l.record name d added).NoneBare := by
  unfold Ledger.record
  split
  · exact hl
  · rename_i hadded
    intro name' p h
    by_cases hn : name' = name
    · subst hn
      rw [OrdMap.get?_insert_self, Option.some.injEq] at h
      subst h
      cases d <;> simp [isBare, PerDirection.modify, PerDirection.set, PerDirection.get] <;> simp_all
    · rw [OrdMap.get?_insert_of_ne _ _ hn] at h
      exact hl name' p h

/-- Whether the ledger records each rule of a layout under the name it belongs
to, and nothing else. -/
structure Records (l : Ledger) (U : PerDirection Layout) : Prop where
  recorded : ∀ name d, l.recorded name d = (U.get d).chosen (Layout.ofName name)
  noneBare : l.NoneBare

/-- A rule is recorded under the name at its place in the layout. -/
theorem Records.mem_recorded {l : Ledger} {U : PerDirection Layout} (h : l.Records U)
    {d : Direction} {i : Nat} {e : Option String × Rule} (he : (U.get d)[i]? = some e)
    (name : String) : { e.2 with id := i } ∈ l.recorded name d ↔ e.1 = some name := by
  rw [h.recorded, Layout.mem_chosen]
  constructor
  · rintro ⟨e', he', hpass, -⟩
    rw [he, Option.some.injEq] at he'
    subst he'
    simpa using hpass
  · exact fun hname => ⟨e, he, by simp [hname], rfl⟩

theorem Records.recorded_ne_nil {l : Ledger} {U : PerDirection Layout} (h : l.Records U)
    {d : Direction} {e : Option String × Rule} (he : e ∈ U.get d) {name : String}
    (hname : e.1 = some name) : l.recorded name d ≠ [] := by
  intro hnone
  rw [h.recorded, Layout.chosen_eq_nil_iff] at hnone
  exact List.filter_eq_nil_iff.1 hnone e he (by simp [hname])

theorem Records.mem_keys {l : Ledger} {U : PerDirection Layout} (h : l.Records U) {d : Direction}
    {e : Option String × Rule} (he : e ∈ U.get d) {name : String} (hname : e.1 = some name) :
    name ∈ l.rules.keys := by
  rw [OrdMap.mem_keys, Option.isSome_iff_ne_none]
  exact fun hnone => h.recorded_ne_nil he hname (recorded_eq_nil hnone d)

/-- The records follow a deletion. -/
theorem Records.deleted {l : Ledger} {U : PerDirection Layout} (h : l.Records U) (d : Direction)
    (id : Nat) : (l.deleted d id).Records (U.set d ((U.get d).eraseIdx id)) := by
  refine ⟨fun name d' => ?_, .deleted d id⟩
  by_cases hd : d' = d
  · subst hd
    rw [recorded_deleted_self, h.recorded, Layout.without_chosen, PerDirection.get_set_self]
  · rw [recorded_deleted_of_ne _ _ _ hd, h.recorded, PerDirection.get_set_of_ne _ _ hd]

/-- Rules that are recorded under the numbers from the end of a layout on belong
at its end. -/
theorem Records.record {l : Ledger} {U : PerDirection Layout} (h : l.Records U) (name : String)
    (d : Direction) (rules : List Rule) :
    (l.record name d (Rule.numberFrom (U.get d).length rules)).Records
      (U.set d (U.get d ++ rules.map fun r => (some name, r))) := by
  refine ⟨fun name' d' => ?_, .record h.noneBare name d _⟩
  by_cases hd : d' = d
  · subst hd
    rw [PerDirection.get_set_self, Layout.chosen_append]
    by_cases hname : name' = name
    · subst hname
      rw [recorded_record_self, h.recorded, if_pos rfl]
    · rw [recorded_record_of_ne _ _ (.inl hname), h.recorded, if_neg (Ne.symm hname),
        List.append_nil]
  · rw [recorded_record_of_ne _ _ (.inr hd), h.recorded, PerDirection.get_set_of_ne _ _ hd]

end Ledger

namespace Backend

variable {b b' : Backend} {name : String} {U : PerDirection Layout}

def Holds (b : Backend) (name : String) (U : PerDirection Layout) : Prop :=
  ∃ fw, b.firewalls.get? name = some fw ∧ ∀ d : Direction, (fw.get d.chain).rules = (U.get d).rules

theorem Holds.failed (hU : b.Holds name U) {call : Call} {e : BackendError}
    (h : b.perform name call = (.error e, b')) : b'.Holds name U := by
  rw [perform_error h]
  exact hU

/-- A call that edits no rules leaves the layouts alone, done or not. -/
theorem Holds.perform (hU : b.Holds name U) {call : Call} {r : Except BackendError Unit}
    (h : b.perform name call = (r, b')) (hcall : call ≠ .destroy)
    (hedit : call.editsRules = false) : b'.Holds name U := by
  obtain ⟨fw, hfw, hrules⟩ := hU
  rcases perform_cases hfw hcall with ⟨e, he⟩ | ⟨fw', b'', hb, hchange, hfw', -⟩
  · rw [he, Prod.mk.injEq] at h
    obtain ⟨-, rfl⟩ := h
    exact ⟨fw, hfw, hrules⟩
  · rw [hb, Prod.mk.injEq] at h
    obtain ⟨-, rfl⟩ := h
    refine ⟨fw', hfw', fun d => ?_⟩
    rw [change_rules hchange hedit, hrules]

theorem Holds.commit (hU : b.Holds name U) (c : Chain) :
    (b.perform name (.commit c)).2.Holds name U :=
  hU.perform (Eq.refl (b.perform name (.commit c))) nofun rfl

theorem Holds.read (hU : b.Holds name U) {c : Chain} {r : Except BackendError (List Rule)}
    (h : b.read name c = (r, b')) : b'.Holds name U := by
  unfold Backend.read at h
  split at h <;> rename_i hp <;> obtain ⟨-, rfl⟩ := Prod.mk.inj h <;> exact hU.perform hp nofun rfl

theorem Holds.find (hU : b.Holds name U) {r : Except BackendError Bool}
    (h : b.find name = (r, b')) : b'.Holds name U := by
  unfold Backend.find at h
  split at h <;> rename_i hp <;> obtain ⟨-, rfl⟩ := Prod.mk.inj h <;> exact hU.perform hp nofun rfl

/-- A deletion that is done takes the entry at its place out of the layout. -/
theorem Holds.delete (hU : b.Holds name U) {d : Direction} {id : Nat}
    (h : b.perform name (.delete d.chain id) = (.ok (), b')) :
    b'.Holds name (U.set d ((U.get d).eraseIdx id)) := by
  obtain ⟨fw, hfw, hrules⟩ := hU
  rcases perform_cases hfw (show Call.delete d.chain id ≠ .destroy from nofun) with
    ⟨e, he⟩ | ⟨fw', b'', hb, hchange, hfw', -⟩
  · rw [he] at h
    cases h
  · rw [hb, Prod.mk.injEq] at h
    obtain ⟨-, rfl⟩ := h
    obtain ⟨hdeleted, hother⟩ := change_delete hchange
    rw [hrules] at hdeleted
    obtain ⟨-, hdeleted⟩ := Layout.deleteRule_rules hdeleted
    refine ⟨fw', hfw', fun d' => ?_⟩
    by_cases hd : d' = d
    · subst hd
      rw [hdeleted, PerDirection.get_set_self]
    · rw [hother _ (Direction.chain_ne hd), hrules, PerDirection.get_set_of_ne _ _ hd]

/-- Rules that are appended stand at the end of the layout; they were numbered
from there. -/
theorem Holds.append (hU : b.Holds name U) {d : Direction} {rules : List Rule} {k : Nat}
    (hne : rules ≠ [])
    (h : b.perform name (.append d.chain (Rule.numberFrom k rules)) = (.ok (), b'))
    (owner : String) :
    k = (U.get d).length ∧
      b'.Holds name (U.set d (U.get d ++ rules.map fun r => (some owner, r))) := by
  obtain ⟨fw, hfw, hrules⟩ := hU
  rcases perform_cases hfw
      (show Call.append d.chain (Rule.numberFrom k rules) ≠ .destroy from nofun) with
    ⟨e, he⟩ | ⟨fw', b'', hb, hchange, hfw', -⟩
  · rw [he] at h
    cases h
  · rw [hb, Prod.mk.injEq] at h
    obtain ⟨-, rfl⟩ := h
    obtain ⟨hchain, hnumbered, hother⟩ := change_append hchange
    rw [hrules, Layout.length_rules, Rule.numberFrom_numberFrom] at hnumbered
    obtain rfl : k = (U.get d).length := Rule.numberFrom_inj hne hnumbered
    refine ⟨rfl, fw', hfw', fun d' => ?_⟩
    by_cases hd : d' = d
    · subst hd
      rw [hchain, hrules, PerDirection.get_set_self, Layout.rules_append]
    · rw [hother _ (Direction.chain_ne hd), hrules, PerDirection.get_set_of_ne _ _ hd]

end Backend

namespace Site

def held? (s : Site) : Option FirewallState := s.backend.firewalls.get? s.name

/-- Whether the chains and the ledger follow the same layouts. -/
structure Laid (s : Site) (U : PerDirection Layout) : Prop where
  holds : s.backend.Holds s.name U
  records : s.ledger.Records U

/-! ### Working on rules

All functions on rules share a frame: they leave the applied records and the
default actions alone, and their calls add to the log. -/

structure Worked (s s' : Site) : Prop where
  name : s'.name = s.name
  applied : s'.ledger.applied = s.ledger.applied
  defaults : s'.ledger.defaults = s.ledger.defaults
  held : ∀ fw, s.held? = some fw → ∃ fw', s'.held? = some fw' ∧
    ∀ c, (fw'.get c).defaultAction = (fw.get c).defaultAction
  log : ∃ new, s'.backend.log = new ++ s.backend.log ∧ ∀ e ∈ new, e.call.setsDefault = false

namespace Worked

variable {s s' s'' : Site}

theorem refl (s : Site) : Worked s s :=
  ⟨rfl, rfl, rfl, fun fw h => ⟨fw, h, fun _ => rfl⟩, [], rfl, by simp⟩

theorem trans (h : Worked s s') (h' : Worked s' s'') : Worked s s'' where
  name := h'.name.trans h.name
  applied := h'.applied.trans h.applied
  defaults := h'.defaults.trans h.defaults
  held := by
    intro fw hfw
    obtain ⟨fw', hfw', heq⟩ := h.held fw hfw
    obtain ⟨fw'', hfw'', heq'⟩ := h'.held fw' hfw'
    exact ⟨fw'', hfw'', fun c => (heq' c).trans (heq c)⟩
  log := by
    obtain ⟨new, hnew, hset⟩ := h.log
    obtain ⟨new', hnew', hset'⟩ := h'.log
    refine ⟨new' ++ new, by rw [hnew', hnew, List.append_assoc], ?_⟩
    intro e he
    rcases List.mem_append.1 he with he | he
    · exact hset' e he
    · exact hset e he

/-- A change of the records alone. -/
theorem ledger (s : Site) {l : Ledger} (happlied : l.applied = s.ledger.applied)
    (hdefaults : l.defaults = s.ledger.defaults) : Worked s { s with ledger := l } :=
  ⟨rfl, happlied, hdefaults, fun fw h => ⟨fw, h, fun _ => rfl⟩, [], rfl, by simp⟩

theorem perform {call : Call} {r : Except BackendError Unit} {b : Backend}
    (h : s.backend.perform s.name call = (r, b)) (hcall : call ≠ .destroy)
    (hset : call.setsDefault = false) : Worked s { s with backend := b } where
  name := rfl
  applied := rfl
  defaults := rfl
  held := by
    intro fw hfw
    rcases Backend.perform_cases hfw hcall with ⟨e, he⟩ | ⟨fw', b', hb', hchange, hfw', -⟩
    · rw [he, Prod.mk.injEq] at h
      obtain ⟨-, rfl⟩ := h
      exact ⟨fw, hfw, fun _ => rfl⟩
    · rw [hb', Prod.mk.injEq] at h
      obtain ⟨-, rfl⟩ := h
      exact ⟨fw', hfw', Backend.change_defaultAction hchange hset⟩
  log := by
    rcases r with e | ⟨⟨⟩⟩
    · refine ⟨[⟨s.name, call, false⟩], by rw [Backend.perform_error h]; rfl, ?_⟩
      simpa using hset
    · obtain ⟨m, -, rfl⟩ := Backend.perform_ok h
      exact ⟨[⟨s.name, call, true⟩], rfl, by simpa using hset⟩

theorem commit (s : Site) (c : Chain) :
    Worked s { s with backend := (s.backend.perform s.name (.commit c)).2 } :=
  perform (Eq.refl (s.backend.perform s.name (.commit c))) nofun rfl

/-- Failures only become more. -/
theorem failures_le (h : Worked s s') (kind : Call → Bool) :
    s.backend.failures kind ≤ s'.backend.failures kind := by
  obtain ⟨new, hnew, -⟩ := h.log
  rw [Backend.failures, Backend.failures, hnew, List.countP_append]
  omega

end Worked

end Site

end PodFirewall
