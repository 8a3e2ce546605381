import PodFirewall.Proofs.Policy.Naming

/-!
The directions that a policy restricts. A policy says itself which they are: by
a list of their names in one dialect, by what it holds for them in the other.
Its records agree with it. Whatever is left out of a rule, a direction that is
restricted keeps a record, and one that is not has none; so the default action
of a direction depends on what a policy says, not on what of it can be
expressed.
-/

namespace PodFirewall

/-! ### What a policy says -/

namespace NetworkPolicy

def typeName : Direction → String
  | .incoming => "Ingress"
  | .outgoing => "Egress"

/-- Whether a policy restricts a direction: it lists it, or it lists none and the
direction is that of incoming traffic. -/
def Restricts (p : NetworkPolicy) (d : Direction) : Prop :=
  typeName d ∈ p.body.types ∨ p.body.types = [] ∧ d = .incoming

end NetworkPolicy

namespace PolycubePolicy

/-- Whether a rule set says anything of its direction: a word on all traffic, or
a rule. -/
def RuleSet.Speaks {ρ : Type} (s : RuleSet ρ) : Prop :=
  s.dropAll = some true ∨ s.allowAll = some true ∨ ∃ rule rest, s.rules = some (rule :: rest)

def Restricts (p : PolycubePolicy) : Direction → Prop
  | .incoming => p.body.spec.ingress.Speaks
  | .outgoing => p.body.spec.egress.Speaks

end PolycubePolicy

def Policy.Restricts : Policy → Direction → Prop
  | k8s p => NetworkPolicy.Restricts p
  | pcn p => PolycubePolicy.Restricts p

/-! ### Records of one direction -/

namespace Record

def toward (d : Direction) (rs : List Record) : List Record := rs.filter (·.direction == d)

variable {h : Header} {d : Direction} {rs : List Record} {r : Record}

theorem mem_toward : r ∈ toward d rs ↔ r ∈ rs ∧ r.direction = d := by
  rw [toward, List.mem_filter, beq_iff_eq]

theorem Numbered.direction (hrs : Numbered h d rs) (hr : r ∈ rs) : r.direction = d := by
  obtain ⟨rule, number, e, rfl, -⟩ := hrs r hr
  rfl

/-- The lists that the records of a policy are made of are found again in
them. -/
theorem toward_flatMap {lists : Direction → List Record} (hlists : ∀ d, Numbered h d (lists d))
    (d : Direction) : toward d (Direction.all.flatMap lists) = lists d := by
  have hself : toward d (lists d) = lists d :=
    List.filter_eq_self.2 fun r hr => beq_iff_eq.2 ((hlists d).direction hr)
  have hother {d' : Direction} (hne : d' ≠ d) : toward d (lists d') = [] :=
    List.filter_eq_nil_iff.2 fun r hr hd =>
      hne (((hlists d').direction hr).symm.trans (beq_iff_eq.1 hd))
  have hsplit : toward d (Direction.all.flatMap lists) =
      toward d (lists .incoming) ++ toward d (lists .outgoing) := by
    simp [toward, Direction.all]
  cases d with
  | incoming => rw [hsplit, hself, hother (by decide), List.append_nil]
  | outgoing => rw [hsplit, hself, hother (by decide), List.nil_append]

/-- The records of a policy are those for incoming traffic, then those for
outgoing traffic. -/
theorem Listed.eq_toward (hrs : Listed h rs) :
    rs = toward .incoming rs ++ toward .outgoing rs := by
  obtain ⟨lists, rfl, hlists⟩ := hrs
  rw [toward_flatMap hlists, toward_flatMap hlists]
  simp [Direction.all]

theorem ofRules_ne_nil (h : Header) (d : Direction) (rules : List (List Entry)) :
    ofRules h d rules ≠ [] := by
  unfold ofRules
  dsimp only
  split
  · exact List.cons_ne_nil _ _
  · rename_i hentries
    simpa using hentries

end Record

/-! ### Standard policies -/

namespace NetworkPolicy

theorem restricts_iff (p : NetworkPolicy) (d : Direction) :
    p.body.restricts d = true ↔ Restricts p d := by
  cases d <;> simp [Restricts, Spec.restricts, typeName, or_comm]

theorem directionRecords_ne_nil_iff (p : NetworkPolicy) (head : Record.Header) (d : Direction) :
    directionRecords p head d ≠ [] ↔ Restricts p d := by
  rw [← restricts_iff, directionRecords]
  by_cases hd : p.body.restricts d = true
  · rw [if_pos hd]
    exact iff_of_true (Record.ofRules_ne_nil _ _ _) hd
  · rw [if_neg hd]
    exact iff_of_false (fun hne => hne rfl) hd

end NetworkPolicy

/-! ### Polycube policies -/

namespace PolycubePolicy

variable {ρ : Type}

theorem RuleSet.speaks_iff (s : RuleSet ρ) :
    s.Speaks ↔ s.dropAll = some true ∨ s.allowAll = some true ∨ s.rules.getD [] ≠ [] := by
  rcases s with ⟨dropAll, allowAll, _ | _ | ⟨rule, rest⟩⟩ <;> simp [Speaks]

/-- What the records of a direction are made from is filled exactly if the policy
restricts the direction. -/
theorem filled_iff (p : PolycubePolicy) (d : Direction) :
    (p.body.spec.rules d).filled = true ↔ Restricts p d := by
  cases d <;>
    simp [DirectionRules.filled, Spec.rules, IngressRules.view, RuleSet.egressView, Restricts,
      RuleSet.speaks_iff, or_assoc]

theorem directionRecords_ne_nil_iff (head : Record.Header) (ports : List PortMatch)
    (d : Direction) (rules : DirectionRules) :
    directionRecords head ports d rules ≠ [] ↔ rules.filled = true := by
  unfold directionRecords DirectionRules.filled
  split
  · simp [*]
  · split
    · simp [*]
    · split
      · simp [*]
      · simp [*, Record.ofRules_ne_nil]

end PolycubePolicy

/-! ### Policies of either dialect -/

namespace Policy

/-- The records of a policy are listed direction by direction, and a direction
has some exactly if the policy restricts it. -/
theorem records_lists {p : Policy} {service : Option Service} {rs : List Record}
    (h : p.records service = .ok rs) :
    ∃ head lists, rs = Direction.all.flatMap lists ∧ (∀ d, Record.Numbered head d (lists d)) ∧
      ∀ d, lists d ≠ [] ↔ p.Restricts d := by
  cases p with
  | k8s p =>
    obtain ⟨head, -, rfl⟩ := NetworkPolicy.records_ok h
    exact ⟨head, _, rfl, NetworkPolicy.numbered_directionRecords p head,
      NetworkPolicy.directionRecords_ne_nil_iff p head⟩
  | pcn p =>
    obtain ⟨ns, found, -, -, rfl⟩ := PolycubePolicy.records_ok h
    exact ⟨_, _, rfl, fun d => PolycubePolicy.numbered_directionRecords _ _ d _, fun d =>
      (PolycubePolicy.directionRecords_ne_nil_iff _ _ d _).trans (PolycubePolicy.filled_iff p d)⟩

/-- A policy that can be read has a record of a direction exactly if it restricts
the direction, no matter how much of its rules is left out. Those for incoming
traffic come first, and all of them have the subject, the parent and the time of
creation in common. -/
theorem records_isolate {p : Policy} {service : Option Service} {rs : List Record}
    (h : p.records service = .ok rs) :
    (∀ d, (∃ r ∈ rs, r.direction = d) ↔ p.Restricts d) ∧
      rs = Record.toward .incoming rs ++ Record.toward .outgoing rs ∧
      ∀ a ∈ rs, ∀ b ∈ rs, a.subject = b.subject ∧ a.parent = b.parent ∧ a.created = b.created := by
  obtain ⟨head, lists, rfl, hnumbered, hrestricts⟩ := records_lists h
  have hlisted : Record.Listed head (Direction.all.flatMap lists) := ⟨lists, rfl, hnumbered⟩
  refine ⟨fun d => ?_, hlisted.eq_toward, fun a ha b hb => ?_⟩
  · rw [← hrestricts d, ← Record.toward_flatMap hnumbered d]
    constructor
    · rintro ⟨r, hr, hd⟩
      exact List.ne_nil_of_mem (Record.mem_toward.2 ⟨hr, hd⟩)
    · intro hne
      obtain ⟨r, hr⟩ := List.exists_mem_of_ne_nil _ hne
      exact ⟨r, Record.mem_toward.1 hr⟩
  · obtain ⟨da, _, _, _, rfl⟩ := hlisted.isOf ha
    obtain ⟨db, _, _, _, rfl⟩ := hlisted.isOf hb
    exact ⟨rfl, rfl, rfl⟩

/-- A policy for both directions, of which no rule can be expressed: the port of
the one goes by a name, the peer of the other by more than labels. -/
def inexpressible : Policy :=
  .k8s ⟨⟨some "p", some "n", ∅, none, none, false⟩,
    ⟨⟨∅, false⟩, ["Ingress", "Egress"],
      [⟨[], [⟨none, some (.name "http"), none⟩]⟩],
      [⟨[⟨none, some ⟨∅, true⟩, none⟩], []⟩]⟩⟩

theorem records_isolate_inexpressible :
    ∃ rs, inexpressible.records none = .ok rs ∧
      rs.map (fun r => (r.direction, r.templates)) = [(.incoming, []), (.outgoing, [])] ∧
      ((∀ d, (∃ r ∈ rs, r.direction = d) ↔ inexpressible.Restricts d) ∧
        rs = Record.toward .incoming rs ++ Record.toward .outgoing rs ∧
        ∀ a ∈ rs, ∀ b ∈ rs,
          a.subject = b.subject ∧ a.parent = b.parent ∧ a.created = b.created) :=
  ⟨_, rfl, rfl, records_isolate (show inexpressible.records none = .ok _ from rfl)⟩

end Policy

end PodFirewall
