import PodFirewall.Proofs.Firewall.Layout
import PodFirewall.Proofs.Policy.Records
import PodFirewall.Resolve.Basic

/-!
Rules that say the same. The templates of compiled records carry no number and
no description, and filling in addresses adds none, so two rules of a record
that match the same packets are equal. Resolving leaves no rule twice, and the
templates of a record for all packets are its rules: no two rules of a record
say the same if its templates are distinct.
-/

namespace PodFirewall

namespace Rule

def Plain (r : Rule) : Prop := r.id = 0 ∧ r.description = none

theorem Plain.eq_of_sameMatch {a b : Rule} (ha : a.Plain) (hb : b.Plain)
    (h : a.sameMatch b = true) : a = b := by
  obtain ⟨hid, hdescription⟩ := ha
  obtain ⟨hid', hdescription'⟩ := hb
  cases a
  cases b
  simp_all [sameMatch]

/-- Different rules without numbers and descriptions say different things. -/
theorem Plain.noTwins {rules : List Rule} (hplain : ∀ r ∈ rules, r.Plain) (h : rules.Nodup) :
    rules.Pairwise fun a b => a.sameMatch b = false := by
  refine h.imp_of_mem fun ha hb hne => ?_
  rw [Bool.eq_false_iff]
  exact fun hsame => hne ((hplain _ ha).eq_of_sameMatch (hplain _ hb) hsame)

theorem Plain.fillPeer {r : Rule} (h : r.Plain) (d : Direction) (address : String) :
    (r.fillPeer d address).Plain := by
  cases d <;> exact h

theorem plain_templates (action : RuleAction) (ports : List PortMatch) :
    ∀ t ∈ templates action ports, t.Plain := by
  intro t ht
  unfold templates expandPorts at ht
  split at ht
  · rw [List.mem_singleton] at ht
    exact ht ▸ ⟨rfl, rfl⟩
  · obtain ⟨r, hr, ht⟩ := List.mem_flatMap.1 ht
    obtain ⟨p, -, rfl⟩ := List.mem_map.1 ht
    rw [List.mem_singleton] at hr
    exact hr ▸ ⟨rfl, rfl⟩

end Rule

/-! ### The templates of a policy -/

def Record.Unmarked (r : Record) : Prop := ∀ t ∈ r.templates, t.Plain

theorem NetworkPolicy.plain_entries {r : NetworkPolicy.PolicyRule} {ns : String} {e : Record.Entry}
    (he : e ∈ r.entries ns) : ∀ t ∈ e.templates, t.Plain := by
  rcases NetworkPolicy.mem_entries he with rfl | ⟨_, _, rfl⟩ <;> exact Rule.plain_templates _ _

theorem PolycubePolicy.plain_entries {r : PolycubePolicy.TrafficRule} {ns : String}
    {ports : List PortMatch} {e : Record.Entry} (he : e ∈ r.entries ns ports) :
    ∀ t ∈ e.templates, t.Plain := by
  obtain ⟨_, _, _, -, -, rfl⟩ := PolycubePolicy.mem_entries he
  exact Rule.plain_templates _ _

/-- The templates of the records of a policy carry neither numbers nor
descriptions. -/
theorem Policy.unmarked_records {p : Policy} {service : Option Service} {rs : List Record}
    (h : p.records service = .ok rs) : ∀ r ∈ rs, r.Unmarked := by
  intro record hrecord
  cases p with
  | k8s p =>
    obtain ⟨head, d, -, rfl | ⟨i, number, r, e, -, he, rfl⟩⟩ := NetworkPolicy.mem_records h hrecord
    · exact List.forall_mem_nil _
    · exact NetworkPolicy.plain_entries he
  | pcn p =>
    obtain ⟨ns, found, d, -, hmem⟩ := PolycubePolicy.mem_records h hrecord
    rcases PolycubePolicy.directionRecords_cases hmem with
      ⟨-, rfl⟩ | ⟨-, rfl⟩ | ⟨-, -, rfl | ⟨i, number, r, e, -, he, rfl⟩⟩
    · exact Rule.plain_templates _ _
    · exact Rule.plain_templates _ _
    · exact List.forall_mem_nil _
    · exact PolycubePolicy.plain_entries he

/-! ### Resolving -/

theorem nodup_eraseDups {α : Type} [BEq α] [LawfulBEq α] : ∀ l : List α, l.eraseDups.Nodup
  | [] => List.nodup_nil
  | a :: l => by
    rw [List.eraseDups_cons, List.nodup_cons, List.mem_eraseDups, List.mem_filter]
    exact ⟨by simp, nodup_eraseDups _⟩
termination_by l => l.length
decreasing_by exact Nat.lt_succ_of_le (List.length_filter_le _ _)

namespace Resolver

variable {resolver : Resolver} {record : Record} {rules : List Rule}

theorem plain_fillAll {templates : List Rule} (h : ∀ t ∈ templates, t.Plain) (d : Direction)
    (address : String) : ∀ r ∈ fillAll d templates address, r.Plain := by
  intro r hr
  obtain ⟨t, ht, rfl⟩ := List.mem_map.1 hr
  exact (h t ht).fillPeer d address

theorem plain_serviceRules {templates : List Rule} (h : ∀ t ∈ templates, t.Plain)
    (query : Option Query) (found : List Pod) (s : Service) :
    ∀ r ∈ serviceRules templates query found s, r.Plain := by
  intro r hr
  unfold serviceRules at hr
  split at hr
  · cases hr
  · split at hr
    · refine plain_fillAll (fun t ht => ?_) _ _ r hr
      obtain ⟨t', ht', ht⟩ := List.mem_flatMap.1 ht
      unfold Service.throughPorts at ht
      split at ht
      · rw [List.mem_singleton] at ht
        exact ht ▸ h t' ht'
      · obtain ⟨_, -, rfl⟩ := List.mem_map.1 ht
        exact h t' ht'
    · cases hr

theorem plain_resolvePods {templates : List Rule} (h : ∀ t ∈ templates, t.Plain) {d : Direction}
    {query namespaces : Option Query}
    (hrules : resolver.resolvePods d templates query namespaces = .ok rules) :
    ∀ r ∈ rules, r.Plain := by
  have hdirect (pods : List Pod) : ∀ r ∈ pods.flatMap fun p =>
      (podAddresses resolver.range d p).flatMap (fillAll d templates), r.Plain := by
    intro r hr
    obtain ⟨p, -, hr⟩ := List.mem_flatMap.1 hr
    obtain ⟨address, -, hr⟩ := List.mem_flatMap.1 hr
    exact plain_fillAll h d address r hr
  simp only [resolvePods, bind, Except.bind, pure, Except.pure] at hrules
  split at hrules
  · cases hrules
  · split at hrules
    · cases hrules
    · split at hrules
      · rw [← Except.ok.inj hrules]
        exact hdirect _
      · split at hrules
        · cases hrules
        · rw [← Except.ok.inj hrules]
          intro r hr
          rcases List.mem_append.1 hr with hr | hr
          · exact hdirect _ r hr
          · obtain ⟨s, -, hr⟩ := List.mem_flatMap.1 hr
            exact plain_serviceRules h query _ s r hr

/-- The rules of a record carry neither numbers nor descriptions. -/
theorem plain_resolve (hplain : record.Unmarked) (h : resolver.resolve record = .ok rules) :
    ∀ r ∈ rules, r.Plain := by
  unfold resolve at h
  split at h
  · rw [← Except.ok.inj h]
    exact hplain
  · split at h
    · rw [← Except.ok.inj h]
      exact List.forall_mem_nil _
    · rw [← Except.ok.inj h]
      intro r hr
      obtain ⟨text, -, hr⟩ := List.mem_flatMap.1 (List.mem_eraseDups.1 hr)
      exact plain_fillAll hplain _ text r hr
    · split at h
      · rename_i hpods
        rw [← Except.ok.inj h]
        exact fun r hr => plain_resolvePods hplain hpods r (List.mem_eraseDups.1 hr)
      · cases h

/-- The templates of a record for all packets are its rules, and any other record
is resolved without repetition. -/
theorem resolve_cases (h : resolver.resolve record = .ok rules) :
    record.action.isAll = true ∧ rules = record.templates ∨
      record.action.isAll = false ∧ rules.Nodup := by
  unfold resolve at h
  split at h
  · exact .inl ⟨‹_›, (Except.ok.inj h).symm⟩
  · rename_i hall
    refine .inr ⟨Bool.eq_false_iff.2 hall, ?_⟩
    split at h
    · rw [← Except.ok.inj h]
      exact List.nodup_nil
    · rw [← Except.ok.inj h]
      exact nodup_eraseDups _
    · split at h
      · rw [← Except.ok.inj h]
        exact nodup_eraseDups _
      · cases h

/-- No two rules of a record say the same. -/
theorem noTwins_resolve (hplain : record.Unmarked) (hnodup : record.templates.Nodup)
    (h : resolver.resolve record = .ok rules) :
    rules.Pairwise fun a b => a.sameMatch b = false := by
  refine Rule.Plain.noTwins (plain_resolve hplain h) ?_
  rcases resolve_cases h with ⟨-, rfl⟩ | ⟨-, hrules⟩
  · exact hnodup
  · exact hrules

end Resolver

end PodFirewall
