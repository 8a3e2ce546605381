import PodFirewall.Proofs.Firewall.Apart
import PodFirewall.Proofs.Firewall.Known

/-!
Taking over a firewall. Creation asks for the ids of all rules before it deletes
the first, and the service renumbers after each deletion. Since it deletes from
the last rule to the first, each id is still that of a rule when its turn comes:
so, on a service that disturbs no call, creation succeeds whatever it finds under
the name, and rules are counted from 0 again.
-/

namespace PodFirewall

theorem Direction.exists_chain (c : Chain) : ∃ d : Direction, d.chain = c := by
  cases c
  · exact ⟨.outgoing, rfl⟩
  · exact ⟨.incoming, rfl⟩

namespace Backend

variable {b b' : Backend} {name : String} {U : PerDirection Layout}

theorem AllNumbered.holds (h : AllNumbered b.firewalls) {fw : FirewallState}
    (hfw : b.firewalls.get? name = some fw) : ∃ U, b.Holds name U := by
  refine ⟨⟨Layout.marked (fw.get .egress).rules, Layout.marked (fw.get .ingress).rules⟩, fw, hfw,
    fun d => ?_⟩
  cases d
  · exact (Layout.rules_marked (h name fw hfw .egress)).symm
  · exact (Layout.rules_marked (h name fw hfw .ingress)).symm

/-- A rule can be deleted by the number of a place in its chain. -/
theorem exists_deleteRule {U : Layout} {id : Nat} (h : id < U.length) :
    ∃ m, deleteRule id U.rules = some m := by
  have hid : id ∈ U.rules.map (·.id) := by
    rw [Layout.map_id_rules]
    exact List.mem_range.2 h
  generalize U.rules = l at hid
  induction l with
  | nil => cases hid
  | cons r rest ih =>
    rw [deleteRule]
    split
    · exact ⟨_, rfl⟩
    · rename_i hne
      obtain ⟨m, hm⟩ := ih ((List.mem_cons.1 hid).resolve_left (Ne.symm hne))
      exact ⟨_, by rw [hm, Option.map_some]⟩

/-- Rules that are numbered from the end of a chain can be appended to it. -/
theorem appendRules_numberFrom (name : String) (c : Chain) (l rules : List Rule) :
    appendRules name c l (Rule.numberFrom l.length rules) =
      .ok (l ++ Rule.numberFrom l.length rules) := by
  induction rules generalizing l with
  | nil => simp [appendRules, Rule.numberFrom]
  | cons r rest ih =>
    have hrest := ih (l ++ [{ r with id := l.length }])
    rw [List.length_append, List.length_singleton, List.append_assoc] at hrest
    rw [Rule.numberFrom, appendRules, if_pos rfl]
    exact hrest

theorem remnant_eq_nil (h : ∀ fw, b.firewalls.get? name = some fw →
    ∀ c, ∀ r ∈ (fw.get c).rules, r.isDefault = false) (d : Direction) : b.remnant name d = [] := by
  unfold remnant
  cases hfw : b.firewalls.get? name with
  | none => rfl
  | some fw => exact List.filter_eq_nil_iff.2 fun r hr => by simp [h fw hfw _ r hr]

/-! ### Calls that nothing disturbs -/

/-- Whether nothing will go wrong with calls about a firewall from now on. -/
def Undisturbed (name : String) (b : Backend) : Prop :=
  ∀ n call, b.log.length ≤ n → b.faults n name call = none

theorem faults_perform {call : Call} {r : Except BackendError Unit}
    (h : b.perform name call = (r, b')) : b'.faults = b.faults := by
  rcases r with e | ⟨⟨⟩⟩
  · rw [perform_error h]
  · obtain ⟨m, -, rfl⟩ := perform_ok h
    rfl

theorem closed_undisturbed (name other : String) : Closed other (Undisturbed name) := by
  intro b b' call r h hb n call' hn
  rw [log_perform h, List.length_cons] at hn
  rw [faults_perform h]
  exact hb n call' (Nat.le_of_succ_le hn)

namespace Undisturbed

theorem perform (h : b.Undisturbed name) {call : Call} {m : OrdMap String FirewallState}
    (heffect : b.effect name call = .ok m) :
    ∃ b', b.perform name call = (.ok (), b') ∧ b'.Undisturbed name := by
  have hok : b.perform name call =
      (.ok (), { b with firewalls := m, log := ⟨name, call, true⟩ :: b.log }) := by
    rw [Backend.perform, h _ _ (Nat.le_refl _), outcome, heffect]
  exact ⟨_, hok, closed_undisturbed name name hok h⟩

/-- A call is done if the firewall it is about can change by it. -/
theorem perform_change (h : b.Undisturbed name) {fw fw' : FirewallState} {call : Call}
    (hfw : b.firewalls.get? name = some fw) (hchange : change name fw call = .ok fw')
    (hcall : call ≠ .destroy) :
    ∃ b', b.perform name call = (.ok (), b') ∧ b'.Undisturbed name := by
  cases call with
  | destroy => exact absurd rfl hcall
  | find => exact h.perform rfl
  | create => exact h.perform (m := b.firewalls) (by simp only [effect, hfw])
  | read c | append c rules | delete c id | setDefault c action | commit c =>
    exact h.perform (m := b.firewalls.insert name fw') (by simp only [effect, hfw, hchange])

theorem find (h : b.Undisturbed name) :
    ∃ b', b.find name = (.ok (b.firewalls.contains name), b') ∧ b'.Undisturbed name := by
  obtain ⟨b', hok, hb'⟩ := h.perform (show b.effect name .find = .ok b.firewalls from rfl)
  obtain ⟨m, hm, rfl⟩ := perform_ok hok
  obtain rfl := Except.ok.inj hm
  exact ⟨_, by rw [Backend.find, hok], hb'⟩

theorem read (h : b.Undisturbed name) (hU : b.Holds name U) (c : Chain) :
    ∃ listing b', b.read name c = (.ok listing, b') ∧ b'.Undisturbed name := by
  obtain ⟨fw, hfw, -⟩ := hU
  obtain ⟨b', hok, hb'⟩ := h.perform_change hfw (show change name fw (.read c) = .ok fw from rfl)
    (by simp)
  exact ⟨_, b', by rw [Backend.read, hok], hb'⟩

/-- Calls about a firewall that exists are all done if they edit no rules. -/
theorem performAll (h : b.Undisturbed name) (hU : b.Holds name U) {calls : List Call}
    (hcalls : ∀ call ∈ calls, call ≠ .destroy ∧ call.editsRules = false) :
    ∃ b', b.performAll name calls = (.ok (), b') := by
  induction calls generalizing b with
  | nil => exact ⟨b, rfl⟩
  | cons call rest ih =>
    obtain ⟨⟨hdestroy, hedit⟩, hrest⟩ := List.forall_mem_cons.1 hcalls
    obtain ⟨fw, hfw, -⟩ := id hU
    obtain ⟨fw', hchange⟩ : ∃ fw', change name fw call = .ok fw' := by
      cases call <;> first | exact ⟨_, rfl⟩ | cases hedit
    obtain ⟨b₁, hok, hb₁⟩ := h.perform_change hfw hchange hdestroy
    obtain ⟨b', hall⟩ := ih hb₁ (hU.perform hok hdestroy hedit) hrest
    exact ⟨b', by rw [Backend.performAll, hok]; exact hall⟩

/-! ### Deleting all that is listed -/

theorem delete (h : b.Undisturbed name) (hU : b.Holds name U) {d : Direction} {id : Nat}
    (hid : id < (U.get d).length) :
    ∃ b', b.perform name (.delete d.chain id) = (.ok (), b') ∧ b'.Undisturbed name := by
  obtain ⟨fw, hfw, hrules⟩ := hU
  obtain ⟨m, hm⟩ := exists_deleteRule hid
  have hchange : change name fw (.delete d.chain id) =
      .ok (fw.set d.chain { fw.get d.chain with rules := m }) := by
    rw [change, hrules, hm]
  exact h.perform_change hfw hchange (by simp)

theorem append (h : b.Undisturbed name) (hU : b.Holds name U) (d : Direction)
    (rules : List Rule) :
    ∃ b', b.perform name (.append d.chain (Rule.numberFrom (U.get d).length rules)) =
      (.ok (), b') ∧ b'.Undisturbed name := by
  obtain ⟨fw, hfw, hrules⟩ := hU
  obtain ⟨m, hm⟩ : ∃ m, appendRules name d.chain (fw.get d.chain).rules
      (Rule.numberFrom (U.get d).length rules) = .ok m := by
    rw [← Layout.length_rules, ← hrules]
    exact ⟨_, appendRules_numberFrom ..⟩
  have hchange : change name fw (.append d.chain (Rule.numberFrom (U.get d).length rules)) =
      .ok (fw.set d.chain { fw.get d.chain with
        rules := m, appends := (fw.get d.chain).appends + 1 }) := by
    rw [change, hm]
  exact h.perform_change hfw hchange (by simp)

/-- From the last place to the first, each rule is still where it was listed. -/
theorem deleteAll (h : b.Undisturbed name) (hU : b.Holds name U) {d : Direction} {ids : List Nat}
    (hdown : ids.Pairwise fun i j => j < i) (hids : ∀ id ∈ ids, id < (U.get d).length) :
    ∃ b' V, b.performAll name (ids.map fun id => .delete d.chain id) = (.ok (), b') ∧
      b'.Holds name V ∧ b'.Undisturbed name := by
  induction ids generalizing b U with
  | nil => exact ⟨b, U, rfl, hU, h⟩
  | cons id rest ih =>
    obtain ⟨hlt, hrest⟩ := List.pairwise_cons.1 hdown
    have hid := hids id List.mem_cons_self
    obtain ⟨b₁, hok, hb₁⟩ := h.delete hU hid
    have hfit : ∀ id' ∈ rest, id' < ((U.set d ((U.get d).eraseIdx id)).get d).length := by
      intro id' hid'
      have hbefore := hlt id' hid'
      rw [PerDirection.get_set_self, List.length_eraseIdx_of_lt hid]
      omega
    obtain ⟨b', V, hall, hV, hb'⟩ := ih hb₁ (hU.delete hok) hrest hfit
    exact ⟨b', V, by rw [List.map_cons, Backend.performAll, hok]; exact hall, hV, hb'⟩

/-- Of the ids in a listing, those of rules that can be deleted are places. -/
theorem clearChain (h : b.Undisturbed name) (hU : b.Holds name U) (d : Direction) :
    ∃ b' V, Site.clearChain b name d.chain = (.ok (), b') ∧ b'.Holds name V ∧
      b'.Undisturbed name := by
  obtain ⟨listing, b₁, hread, hb₁⟩ := h.read hU d.chain
  have hU₁ := hU.read hread
  obtain ⟨fw, hfw, hrules⟩ := id hU₁
  have hlisted : (listing.filter fun r => !r.isDefault) =
      (U.get d).rules.filter fun r => !r.isDefault := by
    rw [read_ok hread, hfw, Option.map_some, Option.getD_some, filter_listing, hrules]
  have hsub : ((listing.filter fun r => !r.isDefault).map (·.id)).Sublist
      (List.range (U.get d).length) := by
    rw [hlisted, ← Layout.map_id_rules]
    exact List.filter_sublist.map _
  obtain ⟨b', V, hall, hV, hb'⟩ := hb₁.deleteAll hU₁ (d := d)
    (List.pairwise_map.2 (Rule.sortDown_strict (hsub.nodup List.nodup_range))) fun id hid =>
      List.mem_range.1 (hsub.subset (((Rule.sortDown_perm _).map _).subset hid))
  refine ⟨b', V, ?_, hV, hb'⟩
  rw [Site.clearChain, hread, ← hall, List.map_map]
  rfl

theorem clearChains (h : b.Undisturbed name) (hU : b.Holds name U) (chains : List Chain) :
    ∃ b', Site.clearChains b name chains = (.ok (), b') ∧ b'.Undisturbed name := by
  induction chains generalizing b U with
  | nil => exact ⟨b, rfl, h⟩
  | cons c rest ih =>
    obtain ⟨d, rfl⟩ := Direction.exists_chain c
    obtain ⟨b₁, V, hclear, hV, hb₁⟩ := h.clearChain hU d
    obtain ⟨b', hall, hb'⟩ := ih hb₁ hV
    exact ⟨b', by rw [Site.clearChains, hclear]; exact hall, hb'⟩

theorem prepare (h : b.Undisturbed name) (hb : AllNumbered b.firewalls) :
    ∃ b', Site.prepare b name = (.ok (), b') ∧ b'.Undisturbed name := by
  obtain ⟨b₁, hfind, hb₁⟩ := h.find
  obtain ⟨hsame, -⟩ := find_ok hfind
  cases hfw : b.firewalls.get? name with
  | none =>
    have hnew : b₁.effect name .create = .ok (b.firewalls.insert name ⟨.empty, .empty⟩) := by
      simp only [effect, hsame, hfw]
    obtain ⟨b', hcreate, hb'⟩ := hb₁.perform hnew
    exact ⟨b', by rw [Site.prepare, hfind, OrdMap.contains, hfw]; exact hcreate, hb'⟩
  | some fw =>
    obtain ⟨U, hU⟩ := hb.holds hfw
    obtain ⟨b', hclear, hb'⟩ := hb₁.clearChains (hU.find hfind) Chain.all
    exact ⟨b', by rw [Site.prepare, hfind, OrdMap.contains, hfw]; exact hclear, hb'⟩

/-- Creation succeeds, whatever is there under the name. -/
theorem create (h : b.Undisturbed name) (hb : AllNumbered b.firewalls) :
    ∃ b', Site.create b name =
      (.ok ⟨name, { Ledger.empty with defaults := ⟨some .forward, some .forward⟩ }⟩, b') := by
  obtain ⟨b₁, hprepare, hb₁⟩ := h.prepare hb
  obtain ⟨b', hset⟩ := hb₁.performAll (prepare_ok hb hprepare) Site.forall_mem_setUp
  refine ⟨b', ?_⟩
  unfold Site.setUp at hset
  rw [Site.create, hprepare]
  dsimp only
  rw [hset]

end Undisturbed

end Backend

namespace Site

open Backend (Undisturbed)

variable {s : Site} {U : PerDirection Layout} {d : Direction}

/-! ### The first rules of a chain -/

/-- On a service that disturbs no call, rules can be appended to an empty chain
and are counted from 0. -/
theorem inject_of_empty (h : s.backend.Undisturbed s.name) (hU : s.backend.Holds s.name U)
    (hnone : U.get d = []) (rules : List Rule) :
    ∃ s', s.inject d rules = (.ok (Rule.numberFrom 0 rules), s') ∧ s'.name = s.name ∧
      s'.backend.Undisturbed s.name ∧
      s'.backend.Holds s.name (U.set d (rules.map fun r => (some "", r))) := by
  by_cases hne : rules = []
  · subst hne
    exact ⟨s, rfl, rfl, h, by rwa [List.map_nil, ← hnone, PerDirection.set_get_self]⟩
  · obtain ⟨listing, b₁, hread, hb₁⟩ := h.read hU d.chain
    have hU₁ := hU.read hread
    have hnext : Rule.nextId listing = 0 := by
      obtain ⟨fw, hfw, hrules⟩ := hU₁
      rw [Rule.nextId, Backend.read_ok hread, hfw, Option.map_some, Option.getD_some,
        Backend.filter_listing, hrules, hnone]
      rfl
    have happend := hb₁.append hU₁ d rules
    rw [hnone, List.length_nil] at happend
    obtain ⟨b₂, hok, hb₂⟩ := happend
    obtain ⟨-, hU₂⟩ := hU₁.append hne hok ""
    rw [hnone, List.nil_append] at hU₂
    refine ⟨{ s with backend := (b₂.perform s.name (.commit d.chain)).2 }, ?_, rfl,
      Backend.closed_undisturbed s.name s.name rfl hb₂, hU₂.commit d.chain⟩
    rw [inject, if_neg (mt List.isEmpty_iff.1 hne), hread]
    dsimp only
    rw [hnext, hok]

/-- Whether a firewall is as good as new: nothing is known of it but its default
actions, its chains are empty, and packets pass. -/
structure Fresh (s : Site) : Prop where
  ledger : s.ledger = { Ledger.empty with defaults := ⟨some .forward, some .forward⟩ }
  chains : ∃ fw, s.held? = some fw ∧
    ∀ c, (fw.get c).rules = [] ∧ (fw.get c).defaultAction = some .forward

theorem Fresh.holds (h : s.Fresh) : s.backend.Holds s.name ⟨[], []⟩ := by
  obtain ⟨fw, hfw, hchains⟩ := h.chains
  refine ⟨fw, hfw, fun d => ?_⟩
  rw [(hchains d.chain).1]
  cases d <;> rfl

/-- A created firewall is as good as new if no rule that it found is described
like a default action. -/
theorem Created.fresh (hs : s.Created) (hempty : ∀ d, s.chain d = []) : s.Fresh := by
  obtain ⟨b, b₁, -, -, -, hledger⟩ := hs.cases
  obtain ⟨fw, hfw, -⟩ := hs.laid.1.holds
  refine ⟨hledger, fw, hfw, fun c => ?_⟩
  obtain ⟨d, rfl⟩ := Direction.exists_chain c
  have hchain := hempty d
  have hstands := (hs.believes d).1.truth
  rw [chain, held?, hfw] at hchain
  rw [standing, held?, hfw] at hstands
  exact ⟨hchain, hstands⟩

/-- Creation takes over whatever it finds. In any state of a service that
disturbs no call about a name any more, and where no rule under it is described
like a default action, creation succeeds. It leaves a firewall as good as new and
all others as they were; and the first rules that are then appended to a chain
are counted from 0, whether or not others were appended to the other chain before. -/
theorem create_takes_over {b : Backend} (hb : b.Reached) {name : String}
    (hcalm : b.Undisturbed name)
    (hplain : ∀ fw, b.firewalls.get? name = some fw →
      ∀ c, ∀ r ∈ (fw.get c).rules, r.isDefault = false) :
    ∃ s : Site, s.name = name ∧ create b name = (.ok s.toDeployed, s.backend) ∧ s.Fresh ∧
      (∀ other, other ≠ name →
        s.backend.firewalls.get? other = b.firewalls.get? other) ∧
      ∀ d d', d' ≠ d → ∀ others rules,
        ((s.inject d' others).2.inject d rules).1 = .ok (Rule.numberFrom 0 rules) ∧
        ((s.inject d' others).2.inject d rules).2.chain d = Rule.numberFrom 0 rules := by
  obtain ⟨b', hcreate⟩ := hcalm.create hb.numbered
  let s : Site :=
    ⟨⟨name, { Ledger.empty with defaults := ⟨some .forward, some .forward⟩ }⟩, b'⟩
  have hs : s.Created := ⟨b, hb, hcreate⟩
  have hafter {P : Backend → Prop} (hP : Backend.Closed name P) (h : P b) : P b' := by
    have hcreated := hP.create h
    rwa [hcreate] at hcreated
  have hfresh : s.Fresh := by
    obtain ⟨b₁, hprepare, hset, -⟩ := create_cases hcreate
    refine hs.fresh fun d => ?_
    rw [(chain_of_setUp (s := s) hb hprepare hset).2, Backend.remnant_eq_nil hplain]
    rfl
  refine ⟨s, rfl, hcreate, hfresh, fun other hne => ?_, fun d d' hd others rules => ?_⟩
  · exact (hafter (Backend.closed_spares hne b) (.refl other b)).held
  · have hundisturbed : b'.Undisturbed name := hafter (Backend.closed_undisturbed name name) hcalm
    obtain ⟨s₁, hinject, hname, hs₁, hV⟩ :=
      inject_of_empty (s := s) hundisturbed hfresh.holds (d := d') (by cases d' <;> rfl) others
    rw [hinject]
    rw [← hname] at hs₁ hV
    obtain ⟨s₂, hinject₂, hname₂, -, hW⟩ := inject_of_empty hs₁ hV
      (by rw [PerDirection.get_set_of_ne _ _ hd.symm]; cases d <;> rfl) rules
    rw [hinject₂]
    refine ⟨rfl, ?_⟩
    rw [← hname₂] at hW
    rw [chain_eq hW, PerDirection.get_set_self, Layout.rules, List.map_map]
    simp [Function.comp_def]

/-- A firewall with rules in both chains next to another one. -/
theorem create_takes_over_filled :
    let forward : Rule := { Rule.blank with action := .forward }
    let b := ((Backend.empty.performAll "fw" [.create,
      .append .ingress (Rule.numberFrom 0 [Rule.blank, forward, Rule.blank]),
      .append .egress [forward], .setDefault .ingress .drop]).2.performAll "other"
        [.create, .append .ingress [forward]]).2
    b.Reached ∧ b.Undisturbed "fw" ∧
      (∀ fw, b.firewalls.get? "fw" = some fw →
        ∀ c, ∀ r ∈ (fw.get c).rules, r.isDefault = false) ∧
      (b.firewalls.get? "fw").map (fun fw => fw.ingress.rules.length) = some 3 ∧
      ∃ s : Site, s.name = "fw" ∧ create b "fw" = (.ok s.toDeployed, s.backend) ∧ s.Fresh ∧
        (∀ other, other ≠ "fw" →
          s.backend.firewalls.get? other = b.firewalls.get? other) ∧
        ∀ d d', d' ≠ d → ∀ others rules,
          ((s.inject d' others).2.inject d rules).1 = .ok (Rule.numberFrom 0 rules) ∧
          ((s.inject d' others).2.inject d rules).2.chain d = Rule.numberFrom 0 rules := by
  intro forward b
  have hb : b.Reached := Backend.Closed.performAll (Backend.closed_reached "other")
    (Backend.Closed.performAll (Backend.closed_reached "fw") (.start fun _ _ _ => none) _) _
  have hcalm : b.Undisturbed "fw" :=
    Backend.Closed.performAll (Backend.closed_undisturbed "fw" "other")
      (Backend.Closed.performAll (Backend.closed_undisturbed "fw" "fw") (fun _ _ _ => rfl) _) _
  have hall : (b.firewalls.get? "fw").all (fun fw =>
      (fw.ingress.rules ++ fw.egress.rules).all fun r => !r.isDefault) = true := by decide +kernel
  have hplain : ∀ fw, b.firewalls.get? "fw" = some fw →
      ∀ c, ∀ r ∈ (fw.get c).rules, r.isDefault = false := by
    intro fw hfw c r hr
    rw [hfw, Option.all_some, List.all_eq_true] at hall
    have hmem : r ∈ fw.ingress.rules ++ fw.egress.rules := by
      cases c
      · exact List.mem_append_left _ hr
      · exact List.mem_append_right _ hr
    simpa using hall r hmem
  exact ⟨hb, hcalm, hplain, by decide +kernel, create_takes_over hb hcalm hplain⟩

end Site

end PodFirewall
