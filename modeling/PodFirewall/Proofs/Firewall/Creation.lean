import PodFirewall.Proofs.Firewall.Runs

/-!
What the creation of a firewall leaves. All rules that can be deleted are gone;
a rule that is described like a default action is not seen as a rule and stays.
So the chains of a created firewall hold rules of this kind at most, which
belong to no name, and its ledger is empty.
-/

namespace PodFirewall

namespace Backend

/-! ### Chains are numbered

Every call keeps the ids of the rules of a chain equal to their places, so this
holds of every service that came about by calls. -/

/-- Whether the rules of both chains are numbered from 0. -/
def Numbered (fw : FirewallState) : Prop :=
  ∀ c, (fw.get c).rules = Rule.numberFrom 0 (fw.get c).rules

theorem Numbered.set {fw : FirewallState} (h : Numbered fw) {c : Chain} {st : ChainState}
    (hst : st.rules = Rule.numberFrom 0 st.rules) : Numbered (fw.set c st) := by
  intro c'
  by_cases hc : c' = c
  · subst hc
    rw [PerChain.get_set_self]
    exact hst
  · rw [PerChain.get_set_of_ne _ _ hc]
    exact h c'

theorem Numbered.change {name : String} {fw fw' : FirewallState} {call : Call}
    (h : Numbered fw) (hchange : Backend.change name fw call = .ok fw') : Numbered fw' := by
  cases call with
  | find | create | destroy | read => cases hchange; exact h
  | setDefault c | commit c => cases hchange; exact h.set (h c)
  | append c rules =>
    simp only [Backend.change] at hchange
    split at hchange <;> cases hchange
    rename_i m hm
    obtain ⟨rfl, hrules⟩ := appendRules_ok hm
    refine h.set ?_
    dsimp only
    rw [Rule.numberFrom_append, ← h c, Nat.zero_add, ← hrules]
  | delete c id =>
    simp only [Backend.change] at hchange
    split at hchange <;> cases hchange
    rename_i m hm
    rw [h c] at hm
    obtain ⟨-, rfl⟩ := Layout.deleteRule_numberFrom (Nat.zero_le id) hm
    refine h.set ?_
    dsimp only
    rw [Rule.numberFrom_numberFrom]

def AllNumbered (firewalls : OrdMap String FirewallState) : Prop :=
  ∀ name fw, firewalls.get? name = some fw → Numbered fw

theorem AllNumbered.insert {m : OrdMap String FirewallState} (h : AllNumbered m) {name : String}
    {fw : FirewallState} (hfw : Numbered fw) : AllNumbered (m.insert name fw) := by
  intro name' fw' h'
  by_cases hname : name' = name
  · subst hname
    rw [OrdMap.get?_insert_self, Option.some.injEq] at h'
    exact h' ▸ hfw
  · rw [OrdMap.get?_insert_of_ne _ _ hname] at h'
    exact h name' fw' h'

theorem AllNumbered.erase {m : OrdMap String FirewallState} (h : AllNumbered m) (name : String) :
    AllNumbered (m.erase name) := by
  intro name' fw' h'
  by_cases hname : name' = name
  · subst hname
    rw [OrdMap.get?_erase_self] at h'
    cases h'
  · rw [OrdMap.get?_erase_of_ne _ hname] at h'
    exact h name' fw' h'

theorem AllNumbered.effect {b : Backend} {name : String} {call : Call}
    {m : OrdMap String FirewallState} (hb : AllNumbered b.firewalls)
    (h : b.effect name call = .ok m) : AllNumbered m := by
  unfold Backend.effect at h
  split at h
  · cases h; exact hb
  · cases h
    refine hb.insert fun c => ?_
    cases c <;> rfl
  · cases h; exact hb
  · cases h
  · cases h; exact hb.erase name
  · split at h <;> cases h
    rename_i hchange
    exact hb.insert ((hb name _ ‹b.firewalls.get? name = some _›).change hchange)

theorem AllNumbered.outcome {b : Backend} {fault : Option Fault} {name : String} {call : Call}
    {m : OrdMap String FirewallState} (hb : AllNumbered b.firewalls)
    (h : b.outcome fault name call = .ok m) : AllNumbered m :=
  hb.effect (effect_of_outcome h)

theorem Reached.numbered {b : Backend} (h : b.Reached) : AllNumbered b.firewalls := by
  induction h with
  | start faults => nofun
  | call name call _ ih =>
    unfold Backend.perform
    split
    · rename_i hm
      exact ih.outcome hm
    · exact ih
  | elsewhere name call _ ih =>
    unfold Backend.intervene
    dsimp only
    split
    · rename_i hm
      exact ih.outcome hm
    · exact ih

/-! ### Clearing a chain -/

theorem Holds.performAll {b : Backend} {name : String} {U : PerDirection Layout}
    (hU : b.Holds name U) {calls : List Call}
    (hcalls : ∀ call ∈ calls, call ≠ .destroy ∧ call.editsRules = false) :
    (b.performAll name calls).2.Holds name U := by
  induction calls generalizing b with
  | nil => exact hU
  | cons call rest ih =>
    obtain ⟨hdestroy, hedit⟩ := hcalls call List.mem_cons_self
    unfold Backend.performAll
    split <;> rename_i hperform
    · exact ih (hU.perform hperform hdestroy hedit) fun c hc => hcalls c (List.mem_cons_of_mem _ hc)
    · exact hU.perform hperform hdestroy hedit

/-- Deletions that are all done, from the last place to the first, take out just
the entries at these places. -/
theorem Holds.deleteAll {b b' : Backend} {name : String} {U : PerDirection Layout}
    (hU : b.Holds name U) {d : Direction} {q : Layout.Test} {ids : List Nat}
    (hdown : ids.Pairwise fun i j => j < i)
    (hq : ∀ id ∈ ids, ∃ e, (U.get d)[id]? = some e ∧ Layout.passes q e = true)
    (h : b.performAll name (ids.map fun id => .delete d.chain id) = (.ok (), b')) :
    ∃ V, b'.Holds name (U.set d V) ∧ Layout.Thinned q (U.get d) V ∧
      (V.filter (Layout.passes q)).length + ids.length =
        ((U.get d).filter (Layout.passes q)).length := by
  induction ids generalizing b U with
  | nil =>
    obtain ⟨-, rfl⟩ := Prod.mk.inj h
    exact ⟨U.get d, by simpa using hU, .refl _ _, rfl⟩
  | cons id rest ih =>
    obtain ⟨hlt, hrest⟩ := List.pairwise_cons.1 hdown
    obtain ⟨e, he, hqe⟩ := hq id List.mem_cons_self
    obtain ⟨hthin, hgone⟩ := Layout.thinned_eraseIdx he hqe
    simp only [List.map_cons, Backend.performAll] at h
    split at h
    · rename_i b₁ hperform
      have hq' : ∀ id' ∈ rest, ∃ e', ((U.set d ((U.get d).eraseIdx id)).get d)[id']? = some e' ∧
          Layout.passes q e' = true := by
        intro id' hid'
        obtain ⟨e', he', hqe'⟩ := hq id' (List.mem_cons_of_mem _ hid')
        refine ⟨e', ?_, hqe'⟩
        rw [PerDirection.get_set_self, List.getElem?_eraseIdx_of_lt (hlt id' hid'), he']
      obtain ⟨V, hV, hthin', hcount⟩ := ih (hU.delete hperform) hrest hq' h
      rw [PerDirection.set_set] at hV
      rw [PerDirection.get_set_self] at hthin' hcount
      refine ⟨V, hV, hthin.trans hthin', ?_⟩
      rw [List.length_cons]
      omega
    · cases h

end Backend

namespace Layout

/-- Rules that belong to no name. -/
def strays (rules : List Rule) : Layout := rules.map fun r => (none, r)

/-- A chain in which the rules that can be deleted are marked by a name. -/
def marked (rules : List Rule) : Layout :=
  rules.map fun r => (if r.isDefault then none else some "", r)

theorem numberedFrom_marked {k : Nat} {rules : List Rule} (h : rules = Rule.numberFrom k rules) :
    (marked rules).numberedFrom k = marked rules := by
  induction rules generalizing k with
  | nil => rfl
  | cons r rest ih =>
    rw [Rule.numberFrom, List.cons.injEq] at h
    obtain ⟨hr, hrest⟩ := h
    simp only [marked, List.map_cons, numberedFrom, ← hr, List.cons.injEq, true_and]
    exact ih hrest

theorem chosen_marked {rules : List Rule} (h : rules = Rule.numberFrom 0 rules) :
    (marked rules).chosen (ofName "") = rules.filter fun r => !r.isDefault := by
  rw [chosen, numberedFrom_marked h, marked, List.filter_map, List.map_map, Function.comp_def,
    List.map_id']
  refine List.filter_congr fun r _ => ?_
  cases hr : r.isDefault <;> simp [hr]

theorem filter_marked (rules : List Rule) :
    ((marked rules).filter fun e => !passes (ofName "") e) =
      strays (rules.filter Rule.isDefault) := by
  rw [marked, strays, List.filter_map]
  induction rules with
  | nil => rfl
  | cons r rest ih => cases hr : r.isDefault <;> simp_all

theorem rules_marked {rules : List Rule} (h : rules = Rule.numberFrom 0 rules) :
    (marked rules).rules = rules := by
  rw [Layout.rules, marked, List.map_map, Function.comp_def, List.map_id', ← h]

end Layout

namespace Backend

variable {b b' : Backend} {name : String}

theorem read_ok {c : Chain} {listing : List Rule} (h : b.read name c = (.ok listing, b')) :
    listing = ((b'.firewalls.get? name).map fun fw => (fw.get c).listing).getD [] := by
  unfold Backend.read at h
  split at h
  · obtain ⟨hlisting, rfl⟩ := Prod.mk.inj h
    exact (Except.ok.inj hlisting).symm
  · cases h

theorem filter_listing (st : ChainState) :
    (st.listing.filter fun r => !r.isDefault) = st.rules.filter fun r => !r.isDefault := by
  rw [ChainState.listing, List.filter_append, List.filter_cons_of_neg (by simp [Rule.isDefault,
    Rule.defaultEntry]), List.filter_nil, List.append_nil]

/-- Clearing a chain leaves the rules that are described like a default
action. -/
theorem Holds.clearChain {U : PerDirection Layout} (hU : b.Holds name U) {d : Direction}
    {rules : List Rule} (hrules : rules = Rule.numberFrom 0 rules)
    (hmarked : U.get d = Layout.marked rules)
    (h : Site.clearChain b name d.chain = (.ok (), b')) :
    b'.Holds name (U.set d (Layout.strays (rules.filter Rule.isDefault))) := by
  unfold Site.clearChain at h
  split at h
  · cases h
  · rename_i listing b₁ hread
    have hb₁ := hU.read hread
    obtain ⟨fw, hfw, hchain⟩ := hb₁
    -- the listing ends with the default action, which is filtered out like a rule that looks
    -- like it
    have hlisted : (listing.filter fun r => !r.isDefault) =
        (Layout.marked rules).chosen (Layout.ofName "") := by
      rw [read_ok hread, hfw, Option.map_some, Option.getD_some, filter_listing, hchain, hmarked,
        Layout.rules_marked hrules, Layout.chosen_marked hrules]
    have hup := Layout.pairwise_chosen (Layout.marked rules) (Layout.ofName "")
    rw [← hmarked] at hlisted hup
    dsimp only at h
    rw [hlisted, Rule.sortDown_eq_reverse hup, ← Function.comp_def (Call.delete d.chain),
      ← List.map_map] at h
    have hdown : (((U.get d).chosen (Layout.ofName "")).reverse.map (·.id)).Pairwise
        fun i j => j < i := by
      rw [List.pairwise_map, List.pairwise_reverse]
      exact hup
    have hq : ∀ id ∈ ((U.get d).chosen (Layout.ofName "")).reverse.map (·.id),
        ∃ e, (U.get d)[id]? = some e ∧ Layout.passes (Layout.ofName "") e = true := by
      intro id hid
      obtain ⟨r, hr, rfl⟩ := List.mem_map.1 hid
      obtain ⟨e, he, hpass, -⟩ := Layout.mem_chosen.1 (List.mem_reverse.1 hr)
      exact ⟨e, he, hpass⟩
    obtain ⟨V, hV, hthin, hcount⟩ := Holds.deleteAll ⟨fw, hfw, hchain⟩ hdown hq h
    rw [List.length_map, List.length_reverse, Layout.length_chosen] at hcount
    have hnone : V.filter (Layout.passes (Layout.ofName "")) = [] :=
      List.length_eq_zero_iff.1 (by omega)
    rw [hthin.eq_of_none hnone, hmarked, Layout.filter_marked] at hV
    exact hV

theorem create_ok (hnew : b.firewalls.get? name = none)
    (h : b.perform name .create = (.ok (), b')) :
    b'.firewalls.get? name = some ⟨.empty, .empty⟩ := by
  obtain ⟨m, hm, rfl⟩ := perform_ok h
  simp only [effect, hnew, Except.ok.injEq] at hm
  rw [← hm]
  exact OrdMap.get?_insert_self ..

/-- The rules in the chain of a direction that are described like a default
action. -/
def remnant (b : Backend) (name : String) (d : Direction) : List Rule :=
  ((b.firewalls.get? name).map fun fw => (fw.get d.chain).rules.filter Rule.isDefault).getD []

theorem isDefault_of_mem_remnant {d : Direction} : ∀ r ∈ b.remnant name d, r.isDefault = true := by
  intro r hr
  unfold remnant at hr
  cases hfw : b.firewalls.get? name with
  | none =>
    rw [hfw] at hr
    cases hr
  | some fw =>
    rw [hfw] at hr
    exact (List.mem_filter.1 hr).2

def remnants (b : Backend) (name : String) : PerDirection Layout :=
  ⟨Layout.strays (b.remnant name .incoming), Layout.strays (b.remnant name .outgoing)⟩

@[simp] theorem get_remnants (b : Backend) (name : String) (d : Direction) :
    (b.remnants name).get d = Layout.strays (b.remnant name d) := by cases d <;> rfl

/-- A firewall that is prepared holds no rules but those described like a default
action that it held before. -/
theorem prepare_ok (hb : AllNumbered b.firewalls) (h : Site.prepare b name = (.ok (), b')) :
    b'.Holds name (b.remnants name) := by
  unfold Site.prepare at h
  split at h
  · cases h
  · rename_i b₁ hfind
    obtain ⟨hsame, hfound⟩ := find_ok hfind
    obtain ⟨fw, hfw⟩ := Option.isSome_iff_exists.1 hfound.symm
    have hnumbered := hb name fw hfw
    have hb₁ : b₁.Holds name
        ⟨Layout.marked (fw.get .egress).rules, Layout.marked (fw.get .ingress).rules⟩ := by
      refine ⟨fw, by rw [hsame]; exact hfw, fun d => ?_⟩
      cases d
      · exact (Layout.rules_marked (hnumbered .egress)).symm
      · exact (Layout.rules_marked (hnumbered .ingress)).symm
    simp only [Chain.all, Site.clearChains] at h
    split at h
    · rename_i b₂ hout
      split at h
      · rename_i b₃ hin
        obtain ⟨-, rfl⟩ := Prod.mk.inj h
        have hb₂ := hb₁.clearChain (d := .outgoing) (hnumbered .ingress) rfl hout
        have hb₃ := hb₂.clearChain (d := .incoming) (hnumbered .egress) rfl hin
        rw [remnants, remnant, remnant, hfw]
        exact hb₃
      · cases h
    · cases h
  · rename_i b₁ hfind
    obtain ⟨hsame, hfound⟩ := find_ok hfind
    have hnone : b.firewalls.get? name = none := by
      rw [← Option.not_isSome_iff_eq_none]
      exact fun hsome => by simp [OrdMap.contains, hsome] at hfound
    have hnew : b₁.firewalls.get? name = none := by rw [hsame, hnone]
    refine ⟨_, create_ok hnew h, fun d => ?_⟩
    rw [remnants, remnant, remnant, hnone]
    cases d <;> rfl

end Backend

namespace Rule

theorem all_isDefault_numberFrom {k : Nat} {l : List Rule} (h : ∀ r ∈ l, r.isDefault = true) :
    ∀ r ∈ numberFrom k l, r.isDefault = true := by
  induction l generalizing k with
  | nil => simp [numberFrom]
  | cons r rest ih =>
    obtain ⟨hr, hrest⟩ := List.forall_mem_cons.1 h
    rw [numberFrom]
    exact List.forall_mem_cons.2 ⟨hr, ih hrest⟩

end Rule

namespace Site

theorem chain_eq {s : Site} {U : PerDirection Layout} (h : s.backend.Holds s.name U)
    (d : Direction) : s.chain d = (U.get d).rules := by
  obtain ⟨fw, hfw, hchain⟩ := h
  rw [chain, held?, hfw, Option.map_some, Option.getD_some, hchain]

def setUp : List Call := Chain.all.flatMap fun c => [.setDefault c .forward, .commit c]

theorem forall_mem_setUp : ∀ call ∈ setUp, call ≠ .destroy ∧ call.editsRules = false := by
  simp [setUp, Chain.all, Call.editsRules]

theorem create_cases {b b' : Backend} {name : String} {f : Deployed}
    (h : create b name = (.ok f, b')) :
    ∃ b₁, prepare b name = (.ok (), b₁) ∧ b₁.performAll name setUp = (.ok (), b') ∧
      f = ⟨name, { Ledger.empty with defaults := ⟨some .forward, some .forward⟩ }⟩ := by
  unfold create at h
  split at h
  · cases h
  · rename_i b₁ hprepare
    split at h
    · cases h
    · rename_i hset
      obtain ⟨hdeployed, rfl⟩ := Prod.mk.inj h
      exact ⟨b₁, hprepare, hset, (Except.ok.inj hdeployed).symm⟩

theorem Created.cases {s : Site} (h : s.Created) :
    ∃ b b', b.Reached ∧ prepare b s.name = (.ok (), b') ∧
      b'.performAll s.name setUp = (.ok (), s.backend) ∧
      s.ledger = { Ledger.empty with defaults := ⟨some .forward, some .forward⟩ } := by
  obtain ⟨b, hb, hcreate⟩ := h
  obtain ⟨b₁, hprepare, hset, hdeployed⟩ := create_cases hcreate
  exact ⟨b, b₁, hb, hprepare, hset, congrArg Deployed.ledger hdeployed⟩

def newborn (b : Backend) : Site where
  name := "fw"
  ledger := { Ledger.empty with defaults := ⟨some .forward, some .forward⟩ }
  backend := (create b "fw").2

theorem newborn_created {b : Backend} (hb : b.Reached) (h : (create b "fw").1.toBool = true) :
    (newborn b).Created := by
  refine ⟨b, hb, ?_⟩
  simp only [newborn, create] at h ⊢
  split
  · rename_i hprepare
    rw [hprepare] at h
    cases h
  · rename_i hprepare
    rw [hprepare] at h
    dsimp only at h ⊢
    split
    · rename_i hset
      rw [hset] at h
      cases h
    · rfl

def found (s : Site) : PerDirection Layout :=
  ⟨Layout.strays (s.chain .incoming), Layout.strays (s.chain .outgoing)⟩

@[simp] theorem get_found (s : Site) (d : Direction) :
    s.found.get d = Layout.strays (s.chain d) := by cases d <;> rfl

theorem owner_of_mem_found {s : Site} {d : Direction} :
    ∀ e ∈ s.found.get d, e.1 = none := by
  intro e he
  rw [get_found] at he
  obtain ⟨r, -, rfl⟩ := List.mem_map.1 he
  rfl

/-- The chains of a new firewall hold what was left of the one that had its
name. -/
theorem chain_of_setUp {s : Site} {b b₁ : Backend} (hb : b.Reached)
    (hprepare : prepare b s.name = (.ok (), b₁))
    (hset : b₁.performAll s.name setUp = (.ok (), s.backend)) :
    s.backend.Holds s.name (b.remnants s.name) ∧
      ∀ d, s.chain d = Rule.numberFrom 0 (b.remnant s.name d) := by
  have hholds := (Backend.prepare_ok hb.numbered hprepare).performAll forall_mem_setUp
  rw [hset] at hholds
  refine ⟨hholds, fun d => ?_⟩
  rw [chain_eq hholds d, Backend.get_remnants]
  simp [Layout.rules, Layout.strays, Function.comp_def]

/-- An empty ledger records chains in which no rule belongs to a name. -/
theorem records_of_empty {l : Ledger} (hl : l.rules = ∅) {U : PerDirection Layout}
    (hU : ∀ d, ∀ e ∈ U.get d, e.1 = none) : l.Records U := by
  obtain ⟨rules, applied, defaults⟩ := l
  subst hl
  refine ⟨fun name d => ?_, fun name p hp => by cases hp⟩
  have hnone : (U.get d).filter (Layout.passes (Layout.ofName name)) = [] :=
    List.filter_eq_nil_iff.2 fun e he => by simp [hU d e he]
  rw [(Layout.chosen_eq_nil_iff _ _).2 hnone]
  cases d <;> rfl

/-- A created firewall has an empty ledger, and its chains hold nothing but rules
described like a default action, which belong to no name. -/
theorem Created.laid {s : Site} (h : s.Created) :
    s.Laid s.found ∧ ∀ d, ∀ r ∈ s.chain d, r.isDefault = true := by
  obtain ⟨b, b₁, hb, hprepare, hset, hledger⟩ := h.cases
  obtain ⟨hholds, hchain⟩ := chain_of_setUp hb hprepare hset
  refine ⟨⟨?_, ?_⟩, fun d => ?_⟩
  · obtain ⟨fw, hfw, hrules⟩ := hholds
    refine ⟨fw, hfw, fun d => ?_⟩
    rw [hrules, get_found, hchain, Backend.get_remnants]
    simp [Layout.rules, Layout.strays, Function.comp_def]
  · rw [hledger]
    exact records_of_empty rfl fun _ => owner_of_mem_found
  · rw [hchain]
    exact Rule.all_isDefault_numberFrom Backend.isDefault_of_mem_remnant

end Site

end PodFirewall
