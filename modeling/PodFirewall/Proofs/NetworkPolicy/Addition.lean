import PodFirewall.Proofs.NetworkPolicy.Permission

/-!
What a further rule does to a policy. The rules of a policy and the exceptions
of their blocks end up in one list, of which the first match counts. So a
further rule adds to what is forwarded, and takes away only what an exception of
its own stands in front of.
-/

namespace PodFirewall.NetworkPolicy

variable {α : Type}

def Spec.withRules (s : Spec) (d : Direction) (rules : List PolicyRule) : Spec :=
  match d with
  | .incoming => { s with ingress := rules }
  | .outgoing => { s with egress := rules }

/-- The policy with a further rule for a direction, behind a number of its
rules. -/
def insertRule (p : NetworkPolicy) (d : Direction) (i : Nat) (r : PolicyRule) : NetworkPolicy :=
  { p with
      body := p.body.withRules d ((p.body.rules d).take i ++ r :: (p.body.rules d).drop i) }

/-- Whether a peer shuts the packet out: it is a block with an exception for
it. -/
def PeerSelector.Excepts (s : PeerSelector) (x : Crossing α) : Prop :=
  ∃ b, s.ipBlock = some b ∧ b.isUsable = true ∧ b.except.any x.meets = true

/-- Whether a rule shuts the packet out: its ports are those of the packet, and
the first of its peers that says something of the packet has an exception for
it. -/
def PolicyRule.Excepts (r : PolicyRule) (x : Crossing α) (home : String) : Prop :=
  somePort r.ports (·.admits x) = true ∧
    ∃ before s after, r.peers = before ++ s :: after ∧ s.Excepts x ∧
      ∀ s' ∈ before, s'.verdict? x home r.ports = none

variable {x : Crossing α} {home : String}

@[simp] theorem Spec.rules_withRules (s : Spec) (d : Direction) (rules : List PolicyRule) :
    (s.withRules d rules).rules d = rules := by
  cases d <;> rfl

@[simp] theorem Spec.restricts_withRules (s : Spec) (d d' : Direction) (rules : List PolicyRule) :
    (s.withRules d rules).restricts d' = s.restricts d' := by
  cases d <;> cases d' <;> rfl

theorem PeerSelector.verdict?_eq_drop_iff {s : PeerSelector} {ports : List Port} :
    s.verdict? x home ports = some .drop ↔
      somePort ports (·.admits x) = true ∧ s.Excepts x := by
  unfold verdict? Excepts
  rcases s.ipBlock with _ | b
  · simp
  · simp only [Option.some.injEq, exists_eq_left']
    cases somePort ports (·.admits x) <;> cases b.isUsable <;> cases b.except.any x.meets <;> simp

theorem PolicyRule.verdict?_eq_drop_iff {r : PolicyRule} :
    r.verdict? x home = some .drop ↔ r.Excepts x home := by
  unfold verdict? Excepts
  by_cases hpeers : r.peers.isEmpty = true
  · rw [if_pos hpeers, List.isEmpty_iff.1 hpeers]
    simp
  · rw [if_neg hpeers, List.findSome?_eq_some_iff]
    simp only [PeerSelector.verdict?_eq_drop_iff]
    constructor
    · rintro ⟨before, s, after, hsplit, ⟨hports, hexcepts⟩, hbefore⟩
      exact ⟨hports, before, s, after, hsplit, hexcepts, hbefore⟩
    · rintro ⟨hports, before, s, after, hsplit, hexcepts, hbefore⟩
      exact ⟨before, s, after, hsplit, ⟨hports, hexcepts⟩, hbefore⟩

/-- What a policy says, split at one of its rules. -/
theorem verdict?_split (p : NetworkPolicy) (x : Crossing α) (i : Nat) :
    p.verdict? x = if p.body.restricts x.direction then
      (((p.body.rules x.direction).take i).findSome? (·.verdict? x (NetworkPolicy.home p))).or
        (((p.body.rules x.direction).drop i).findSome? (·.verdict? x (NetworkPolicy.home p)))
      else none := by
  rw [← List.findSome?_append, List.take_append_drop]
  rfl

/-- A further rule has its say where it stands. -/
theorem verdict?_insertRule (p : NetworkPolicy) (x : Crossing α) (i : Nat) (r : PolicyRule) :
    (p.insertRule x.direction i r).verdict? x = if p.body.restricts x.direction then
      (((p.body.rules x.direction).take i).findSome? (·.verdict? x (NetworkPolicy.home p))).or
        ((r.verdict? x (NetworkPolicy.home p)).or
          (((p.body.rules x.direction).drop i).findSome? (·.verdict? x (NetworkPolicy.home p))))
      else none := by
  have hhome : NetworkPolicy.home (p.insertRule x.direction i r) = NetworkPolicy.home p := rfl
  rw [NetworkPolicy.verdict?, hhome, insertRule, Spec.restricts_withRules, Spec.rules_withRules,
    List.findSome?_append, List.findSome?_cons]
  cases r.verdict? x (NetworkPolicy.home p) <;> rfl

/-- A policy with a further rule still forwards a packet that it forwarded
before, unless the rules in front of the new one say nothing of the packet and
the new rule shuts it out. -/
theorem forwarded_insertRule_iff {p : NetworkPolicy} {i : Nat} {r : PolicyRule}
    {rules more : List Rule} (hrules : x.resolver.rulesOf? p x.direction = some rules)
    (hmore : x.resolver.rulesOf? (p.insertRule x.direction i r) x.direction = some more)
    (hforward : x.verdict? rules = some .forward) :
    x.verdict? more = some .forward ↔
      ¬((∀ r' ∈ (p.body.rules x.direction).take i,
          r'.verdict? x (NetworkPolicy.home p) = none) ∧
        r.Excepts x (NetworkPolicy.home p)) := by
  rw [verdict?_rulesOf hrules, verdict?_split p x i] at hforward
  rw [verdict?_rulesOf hmore, verdict?_insertRule, ← List.findSome?_eq_none_iff,
    ← PolicyRule.verdict?_eq_drop_iff]
  split at hforward
  · rw [if_pos ‹_›]
    generalize ((p.body.rules x.direction).take i).findSome? _ = front at *
    rcases front with _ | action
    · -- the new rule decides, or says nothing either
      rw [Option.none_or] at hforward ⊢
      rw [hforward]
      rcases r.verdict? x (NetworkPolicy.home p) with _ | action
      · simp
      · cases action <;> simp
    · rw [Option.some_or] at hforward ⊢
      simp [hforward]
  · cases hforward

/-- The rule for a network keeps its say if the rule for a larger one, with an
exception for it, comes behind. -/
theorem forwarded_before_exception :
    let p := webPolicy [blockRule "10.1.0.0/16" [] []]
    let r := blockRule "10.0.0.0/8" ["10.1.0.0/16"] []
    ∃ rules more, (fromTen 1).resolver.rulesOf? p .incoming = some rules ∧
      (fromTen 1).resolver.rulesOf? (p.insertRule .incoming 1 r) .incoming = some more ∧
      (fromTen 1).verdict? rules = some .forward ∧ (fromTen 1).verdict? more = some .forward := by
  intro p r
  obtain ⟨rules, hrules⟩ : ∃ rules, (fromTen 1).resolver.rulesOf? p .incoming = some rules :=
    Option.isSome_iff_exists.1 (by decide +kernel)
  obtain ⟨more, hmore⟩ : ∃ more,
      (fromTen 1).resolver.rulesOf? (p.insertRule .incoming 1 r) .incoming = some more :=
    Option.isSome_iff_exists.1 (by decide +kernel)
  have hforward : (fromTen 1).verdict? rules = some .forward :=
    (verdict?_rulesOf hrules).trans (by decide +kernel)
  refine ⟨rules, more, hrules, hmore, hforward,
    (forwarded_insertRule_iff (x := fromTen 1) (i := 1) (r := r) hrules hmore hforward).2 ?_⟩
  rintro ⟨hsilent, -⟩
  have hfirst := hsilent (blockRule "10.1.0.0/16" [] []) (List.mem_singleton_self _)
  revert hfirst
  decide +kernel

/-- With the larger network in front, what was forwarded before is not any
more: the exception of the new rule comes first. -/
theorem not_forwarded_insertRule :
    ¬∀ (x : Crossing Nat) (p : NetworkPolicy) (i : Nat) (r : PolicyRule) (rules more : List Rule),
      p.body.rules x.direction ≠ [] → p.body.restricts x.direction = true →
      x.resolver.rulesOf? p x.direction = some rules →
      x.resolver.rulesOf? (p.insertRule x.direction i r) x.direction = some more →
      x.verdict? rules = some .forward → x.verdict? more = some .forward := by
  intro h
  let p := webPolicy [blockRule "10.1.0.0/16" [] []]
  let r := blockRule "10.0.0.0/8" ["10.1.0.0/16"] []
  obtain ⟨rules, hrules⟩ : ∃ rules, (fromTen 1).resolver.rulesOf? p .incoming = some rules :=
    Option.isSome_iff_exists.1 (by decide +kernel)
  obtain ⟨more, hmore⟩ : ∃ more,
      (fromTen 1).resolver.rulesOf? (p.insertRule .incoming 0 r) .incoming = some more :=
    Option.isSome_iff_exists.1 (by decide +kernel)
  have hforward : (fromTen 1).verdict? rules = some .forward :=
    (verdict?_rulesOf hrules).trans (by decide +kernel)
  have hdrop : (fromTen 1).verdict? more = some .drop :=
    (verdict?_rulesOf hmore).trans (by decide +kernel)
  have hstays := h (fromTen 1) p 0 r rules more (List.cons_ne_nil _ _) rfl hrules hmore hforward
  rw [hdrop] at hstays
  cases hstays

end PodFirewall.NetworkPolicy
