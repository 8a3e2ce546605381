import PodFirewall.Proofs.Firewall.Layout

/-!
What one call does to the service. A call fails and leaves all firewalls alone,
or it is done and changes the firewall it is about by `Backend.change`; in both
cases it is recorded. Chains are numbered from 0 in every service that came
about by calls.
-/

namespace PodFirewall

theorem Direction.chain_ne {d d' : Direction} (h : d' ≠ d) : d'.chain ≠ d.chain := by
  cases d <;> cases d' <;> simp_all [Direction.chain]

namespace Call

def setsDefault : Call → Bool
  | .setDefault _ _ => true
  | _ => false

def deletes : Call → Bool
  | .delete _ _ => true
  | _ => false

theorem deletes_delete (c : Chain) (id : Nat) : deletes (.delete c id) = true := rfl

def editsRules : Call → Bool
  | .append _ _ | .delete _ _ => true
  | _ => false

end Call

namespace Backend

/-! ### One call -/

theorem effect_of_holds {b : Backend} {name : String} {fw : FirewallState} {call : Call}
    {m : OrdMap String FirewallState} (hfw : b.firewalls.get? name = some fw)
    (hcall : call ≠ .destroy) (h : b.effect name call = .ok m) :
    ∃ fw', change name fw call = .ok fw' ∧ m.get? name = some fw' := by
  cases call with
  | destroy => exact absurd rfl hcall
  | find | create =>
    simp only [effect, hfw, Except.ok.injEq] at h
    exact ⟨fw, rfl, h ▸ hfw⟩
  | read c | append c rules | delete c id | setDefault c action | commit c =>
    simp only [effect, hfw] at h
    split at h
    · rename_i fw' hfw'
      obtain rfl := Except.ok.inj h
      exact ⟨fw', hfw', OrdMap.get?_insert_self ..⟩
    · cases h

theorem perform_error {b b' : Backend} {name : String} {call : Call} {e : BackendError}
    (h : b.perform name call = (.error e, b')) :
    b' = { b with log := ⟨name, call, false⟩ :: b.log } := by
  unfold perform at h
  split at h
  · cases h
  · exact (Prod.mk.inj h).2.symm

/-- Only a call that nothing disturbs is done. -/
theorem effect_of_outcome {b : Backend} {fault : Option Fault} {name : String} {call : Call}
    {m : OrdMap String FirewallState} (h : b.outcome fault name call = .ok m) :
    b.effect name call = .ok m := by
  unfold outcome at h
  split at h
  · exact h
  · cases h
  · split at h <;> cases h

theorem perform_ok {b b' : Backend} {name : String} {call : Call}
    (h : b.perform name call = (.ok (), b')) :
    ∃ m, b.effect name call = .ok m ∧
      b' = { b with firewalls := m, log := ⟨name, call, true⟩ :: b.log } := by
  unfold perform at h
  split at h
  · rename_i m hm
    exact ⟨m, effect_of_outcome hm, (Prod.mk.inj h).2.symm⟩
  · cases h

theorem log_perform {b b' : Backend} {name : String} {call : Call} {r : Except BackendError Unit}
    (h : b.perform name call = (r, b')) : b'.log = ⟨name, call, r.toBool⟩ :: b.log := by
  rcases r with e | ⟨⟨⟩⟩
  · rw [perform_error h]
    rfl
  · obtain ⟨m, -, rfl⟩ := perform_ok h
    rfl

/-- A call about a firewall that exists fails, and nothing changes, or it is
done. -/
theorem perform_cases {b : Backend} {name : String} {fw : FirewallState} {call : Call}
    (hfw : b.firewalls.get? name = some fw) (hcall : call ≠ .destroy) :
    (∃ e, b.perform name call = (.error e, { b with log := ⟨name, call, false⟩ :: b.log })) ∨
      ∃ fw' b', b.perform name call = (.ok (), b') ∧ change name fw call = .ok fw' ∧
        b'.firewalls.get? name = some fw' ∧ b'.log = ⟨name, call, true⟩ :: b.log := by
  rcases h : b.perform name call with ⟨_ | ⟨⟨⟩⟩, b'⟩
  · exact .inl ⟨_, by rw [perform_error h]⟩
  · obtain ⟨m, hm, rfl⟩ := perform_ok h
    obtain ⟨fw', hchange, hfw'⟩ := effect_of_holds hfw hcall hm
    exact .inr ⟨fw', _, rfl, hchange, hfw', rfl⟩

theorem find_ok {b b' : Backend} {name : String} {found : Bool}
    (h : b.find name = (.ok found, b')) :
    b'.firewalls = b.firewalls ∧ found = b.firewalls.contains name := by
  unfold Backend.find at h
  split at h
  · rename_i b₁ hperform
    obtain ⟨hfound, rfl⟩ := Prod.mk.inj h
    obtain ⟨m, hm, rfl⟩ := perform_ok hperform
    obtain rfl := Except.ok.inj hm
    exact ⟨rfl, (Except.ok.inj hfound).symm⟩
  · cases h

theorem performAll_cons_ok {b b' : Backend} {name : String} {call : Call} {rest : List Call}
    (h : b.performAll name (call :: rest) = (.ok (), b')) :
    ∃ b₁, b.perform name call = (.ok (), b₁) ∧ b₁.performAll name rest = (.ok (), b') := by
  unfold performAll at h
  split at h
  · exact ⟨_, ‹_›, h⟩
  · cases h

def failures (b : Backend) (kind : Call → Bool) : Nat :=
  b.log.countP fun e => !e.done && kind e.call

theorem failures_of_error {b b' : Backend} {name : String} {call : Call} {e : BackendError}
    {kind : Call → Bool} (h : b.perform name call = (.error e, b')) (hkind : kind call = true) :
    b'.failures kind = b.failures kind + 1 := by
  rw [perform_error h, failures, failures, List.countP_cons_of_pos (by simpa using hkind)]

theorem failures_of_ok {b b' : Backend} {name : String} {call : Call} {kind : Call → Bool}
    (h : b.perform name call = (.ok (), b')) : b'.failures kind = b.failures kind := by
  obtain ⟨m, -, rfl⟩ := perform_ok h
  rw [failures, failures, List.countP_cons_of_neg (by simp)]

theorem failures_le_perform {b b' : Backend} {name : String} {call : Call}
    {r : Except BackendError Unit} (h : b.perform name call = (r, b')) (kind : Call → Bool) :
    b.failures kind ≤ b'.failures kind := by
  rcases r with e | ⟨⟨⟩⟩
  · rw [perform_error h, failures, failures, List.countP_cons]
    omega
  · exact Nat.le_of_eq (failures_of_ok h).symm

theorem failures_of_read_error {b b' : Backend} {name : String} {c : Chain} {e : BackendError}
    {kind : Call → Bool} (h : b.read name c = (.error e, b')) (hkind : kind (.read c) = true) :
    b.failures kind < b'.failures kind := by
  unfold Backend.read at h
  split at h
  · cases h
  · rename_i hperform
    obtain ⟨-, rfl⟩ := Prod.mk.inj h
    rw [failures_of_error hperform hkind]
    omega

theorem failures_of_find_error {b b' : Backend} {name : String} {e : BackendError}
    {kind : Call → Bool} (h : b.find name = (.error e, b')) (hkind : kind .find = true) :
    b.failures kind < b'.failures kind := by
  unfold Backend.find at h
  split at h
  · cases h
  · rename_i hperform
    obtain ⟨-, rfl⟩ := Prod.mk.inj h
    rw [failures_of_error hperform hkind]
    omega

/-! ### What a call changes in a firewall -/

theorem change_defaultAction {name : String} {fw fw' : FirewallState} {call : Call}
    (h : change name fw call = .ok fw') (hcall : call.setsDefault = false) (c : Chain) :
    (fw'.get c).defaultAction = (fw.get c).defaultAction := by
  have set (c' : Chain) (st : ChainState) (hst : st.defaultAction = (fw.get c').defaultAction) :
      ((fw.set c' st).get c).defaultAction = (fw.get c).defaultAction := by
    by_cases hc : c = c'
    · subst hc
      rw [PerChain.get_set_self, hst]
    · rw [PerChain.get_set_of_ne _ _ hc]
  cases call with
  | find | create | destroy | read => cases h; rfl
  | setDefault => cases hcall
  | commit c' => cases h; exact set c' _ rfl
  | append c' rules =>
    simp only [change] at h
    split at h <;> cases h
    exact set c' _ rfl
  | delete c' id =>
    simp only [change] at h
    split at h <;> cases h
    exact set c' _ rfl

theorem change_rules {name : String} {fw fw' : FirewallState} {call : Call}
    (h : change name fw call = .ok fw') (hcall : call.editsRules = false) (c : Chain) :
    (fw'.get c).rules = (fw.get c).rules := by
  have set (c' : Chain) (st : ChainState) (hst : st.rules = (fw.get c').rules) :
      ((fw.set c' st).get c).rules = (fw.get c).rules := by
    by_cases hc : c = c'
    · subst hc
      rw [PerChain.get_set_self, hst]
    · rw [PerChain.get_set_of_ne _ _ hc]
  cases call with
  | find | create | destroy | read => cases h; rfl
  | setDefault c' | commit c' => cases h; exact set c' _ rfl
  | append | delete => cases hcall

/-- Rules are appended only under the numbers that come next. -/
theorem appendRules_ok {name : String} {c : Chain} {l rules m : List Rule}
    (h : appendRules name c l rules = .ok m) :
    m = l ++ rules ∧ rules = Rule.numberFrom l.length rules := by
  induction rules generalizing l with
  | nil => cases h; simp [Rule.numberFrom]
  | cons r rest ih =>
    simp only [appendRules] at h
    split at h
    · rename_i hid
      obtain ⟨rfl, hrest⟩ := ih h
      refine ⟨by simp, ?_⟩
      rw [List.length_append, List.length_singleton] at hrest
      rw [Rule.numberFrom, ← hrest, ← hid]
    · cases h

theorem change_append {name : String} {fw fw' : FirewallState} {c : Chain} {rules : List Rule}
    (h : change name fw (.append c rules) = .ok fw') :
    (fw'.get c).rules = (fw.get c).rules ++ rules ∧
      rules = Rule.numberFrom (fw.get c).rules.length rules ∧
      ∀ c', c' ≠ c → fw'.get c' = fw.get c' := by
  simp only [change] at h
  split at h
  · rename_i l hl
    obtain ⟨rfl, hnumbered⟩ := appendRules_ok hl
    cases h
    refine ⟨by simp, hnumbered, fun c' hc => PerChain.get_set_of_ne _ _ hc⟩
  · cases h

theorem change_delete {name : String} {fw fw' : FirewallState} {c : Chain} {id : Nat}
    (h : change name fw (.delete c id) = .ok fw') :
    deleteRule id (fw.get c).rules = some (fw'.get c).rules ∧
      ∀ c', c' ≠ c → fw'.get c' = fw.get c' := by
  simp only [change] at h
  split at h
  · rename_i l hl
    cases h
    exact ⟨by simpa using hl, fun c' hc => PerChain.get_set_of_ne _ _ hc⟩
  · cases h

theorem change_setDefault {name : String} {fw fw' : FirewallState} {c : Chain} {a : RuleAction}
    (h : change name fw (.setDefault c a) = .ok fw') :
    (fw'.get c).defaultAction = some a ∧ ∀ c', c' ≠ c → fw'.get c' = fw.get c' := by
  cases h
  exact ⟨by simp, fun c' hc => PerChain.get_set_of_ne _ _ hc⟩

end Backend

end PodFirewall
