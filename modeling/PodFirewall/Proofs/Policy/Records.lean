import PodFirewall.Policy.Basic

/-!
Where the records of a policy come from. If a policy has records, then it is in a
namespace, which their header names, and each record is an entry of one of the
rules of the policy, or stands for all of them.
-/

namespace PodFirewall

/-- A record of a direction is an entry of one of its rules, unless there is no
entry at all. -/
theorem Record.mem_ofRules {h : Header} {d : Direction} {rules : List (List Entry)} {r : Record}
    (hr : r ∈ ofRules h d rules) :
    r = ofEntry h d 0 0 nothing ∨
      ∃ i number entries e, rules[i]? = some entries ∧ e ∈ entries ∧ r = ofEntry h d i number e := by
  unfold ofRules at hr
  dsimp only at hr
  split at hr
  · exact .inl (List.mem_singleton.1 hr)
  · obtain ⟨e, he, rfl⟩ := List.mem_map.1 hr
    obtain ⟨entries, hentries, he⟩ := List.mem_flatMap.1 (List.fst_mem_of_mem_zipIdx he)
    obtain ⟨entry, hentry, heq⟩ := List.mem_map.1 he
    exact .inr ⟨entries.2, e.2, entries.1, entry, List.mem_zipIdx_iff_getElem?.1 hentries, hentry,
      by rw [← heq]⟩

structure Policy.Heads (p : Policy) (h : Record.Header) : Prop where
  dialect : h.parent.dialect = p.dialect
  name : h.parent.name = p.metadata.name.getD ""
  namespaceName : p.metadata.namespaceName = some h.subject.namespaceName

theorem policyNamespace_ok {m : Kube.Metadata} {ns : String} (h : policyNamespace m = .ok ns) :
    m.namespaceName = some ns := by
  unfold policyNamespace at h
  split at h
  · rename_i found
    rw [← Except.ok.inj h]
    exact (Option.filter_eq_some_iff.1 found).1
  · cases h

/-! ### Standard policies -/

namespace NetworkPolicy

/-- An entry of a rule is for all packets or for a peer, with the ports of the
rule. -/
theorem mem_entries {r : PolicyRule} {ns : String} {e : Record.Entry} (he : e ∈ r.entries ns) :
    e = ⟨.forwardAll, none, Rule.templates .forward (portMatches r.ports)⟩ ∨
      ∃ action peer, e = ⟨.ofRule action, some peer, Rule.templates action (portMatches r.ports)⟩ := by
  unfold PolicyRule.entries at he
  dsimp only at he
  split at he
  · cases he
  · split at he
    · exact .inl (List.mem_singleton.1 he)
    · obtain ⟨p, -, he⟩ := List.mem_flatMap.1 he
      unfold PeerSelector.entries at he
      split at he
      · cases he
      · rcases List.mem_append.1 he with he | he
        · obtain ⟨except, -, rfl⟩ := List.mem_map.1 he
          exact .inr ⟨.drop, except, rfl⟩
        · exact .inr ⟨.forward, _, List.mem_singleton.1 he⟩

theorem heads_header {p : NetworkPolicy} {head : Record.Header} (h : header p = .ok head) :
    (Policy.k8s p).Heads head := by
  simp only [header, bind, Except.bind, pure, Except.pure] at h
  split at h
  · cases h
  · rename_i ns hns
    split at h
    · obtain rfl := Except.ok.inj h
      exact ⟨rfl, rfl, policyNamespace_ok hns⟩
    · cases h

theorem records_ok {p : NetworkPolicy} {rs : List Record} (h : records p = .ok rs) :
    ∃ head, (Policy.k8s p).Heads head ∧ rs = Direction.all.flatMap (directionRecords p head) := by
  simp only [records, bind, Except.bind, pure, Except.pure] at h
  split at h
  · cases h
  · rename_i head hhead
    exact ⟨head, heads_header hhead, (Except.ok.inj h).symm⟩

/-- A record of a policy is an entry of one of its rules. If these have no entry,
it is for all packets, but has no template. -/
theorem mem_records {p : NetworkPolicy} {rs : List Record} {record : Record}
    (h : records p = .ok rs) (hrecord : record ∈ rs) :
    ∃ head d, (Policy.k8s p).Heads head ∧
      (record = Record.ofEntry head d 0 0 Record.nothing ∨
        ∃ i number r e, (p.body.rules d)[i]? = some r ∧
          e ∈ r.entries head.subject.namespaceName ∧ record = Record.ofEntry head d i number e) := by
  obtain ⟨head, hhead, rfl⟩ := records_ok h
  obtain ⟨d, -, hrecord⟩ := List.mem_flatMap.1 hrecord
  refine ⟨head, d, hhead, ?_⟩
  unfold directionRecords at hrecord
  split at hrecord
  · refine (Record.mem_ofRules hrecord).imp_right ?_
    rintro ⟨i, number, entries, e, hentries, he, heq⟩
    rw [List.getElem?_map, Option.map_eq_some_iff] at hentries
    obtain ⟨r, hr, rfl⟩ := hentries
    exact ⟨i, number, r, e, hr, he, heq⟩
  · cases hrecord

end NetworkPolicy

/-! ### Polycube policies -/

namespace PolycubePolicy

/-- What an entry of a rule is made of. -/
theorem mem_entries {r : TrafficRule} {ns : String} {servicePorts : List PortMatch}
    {e : Record.Entry} (he : e ∈ r.entries ns servicePorts) :
    ∃ ports action peer, r.ports? servicePorts = some ports ∧ actionOf? r.action = some action ∧
      e = ⟨.ofRule action, some peer, Rule.templates action ports⟩ := by
  unfold TrafficRule.entries at he
  split at he
  · rename_i ports action hports haction
    obtain ⟨peer, -, rfl⟩ := List.mem_map.1 he
    exact ⟨ports, action, peer, hports, haction, rfl⟩
  · cases he

/-- A record of a direction is for all packets, as its rules say, or an entry of
one of its rules. If these have no entry, it is for all packets too, but has no
template. -/
theorem directionRecords_cases {h : Record.Header} {servicePorts : List PortMatch}
    {d : Direction} {rules : DirectionRules} {record : Record}
    (hrecord : record ∈ directionRecords h servicePorts d rules) :
    rules.dropAll = true ∧
        record = Record.ofEntry h d 0 0 ⟨.dropAll, none, Rule.templates .drop servicePorts⟩ ∨
      rules.allowAll = true ∧
        record = Record.ofEntry h d 0 0 ⟨.forwardAll, none, Rule.templates .forward servicePorts⟩ ∨
      rules.dropAll = false ∧ rules.allowAll = false ∧
        (record = Record.ofEntry h d 0 0 Record.nothing ∨
          ∃ i number r e, rules.rules[i]? = some r ∧
            e ∈ r.entries h.subject.namespaceName servicePorts ∧
            record = Record.ofEntry h d i number e) := by
  unfold directionRecords at hrecord
  split at hrecord
  · exact .inl ⟨‹_›, List.mem_singleton.1 hrecord⟩
  · rename_i hdrop
    split at hrecord
    · exact .inr (.inl ⟨‹_›, List.mem_singleton.1 hrecord⟩)
    · rename_i hallow
      refine .inr (.inr ⟨Bool.eq_false_iff.2 hdrop, Bool.eq_false_iff.2 hallow, ?_⟩)
      split at hrecord
      · cases hrecord
      · rcases Record.mem_ofRules hrecord with hnone | ⟨i, number, entries, e, hentries, he, heq⟩
        · exact .inl hnone
        · rw [List.getElem?_map, Option.map_eq_some_iff] at hentries
          obtain ⟨r, hr, rfl⟩ := hentries
          exact .inr ⟨i, number, r, e, hr, he, heq⟩

/-- The pods that a policy protects, and the default ports of its rules: none if it
is for pods, those of the service if it is for a service. -/
theorem subject_cases {p : PolycubePolicy} {ns : String} {service : Option Service}
    {found : Subject × List PortMatch} (h : subject p ns service = .ok found) :
    p.body.applyTo.kind = .pod ∧ (∃ query, found = (⟨query, false, ns⟩, [])) ∨
      p.body.applyTo.kind = .service ∧ ∃ s, service = some s ∧ s.selector.isEmpty = false ∧
        found = (⟨some (.labels s.selector), true, ns⟩, s.podPorts) := by
  unfold subject at h
  dsimp only at h
  split at h
  · exact .inl ⟨‹_›, _, (Except.ok.inj h).symm⟩
  · split at h
    · cases h
    · split at h
      · cases h
      · rename_i hselector
        exact .inr ⟨‹_›, _, rfl, Bool.eq_false_iff.2 hselector, (Except.ok.inj h).symm⟩
  · cases h

theorem subject_namespaceName {p : PolycubePolicy} {ns : String} {service : Option Service}
    {found : Subject × List PortMatch} (h : subject p ns service = .ok found) :
    found.1.namespaceName = ns := by
  rcases subject_cases h with ⟨-, query, rfl⟩ | ⟨-, s, -, -, rfl⟩ <;> rfl

def headerFor (p : PolycubePolicy) (subject : Subject) : Record.Header where
  parent :=
    ⟨p.metadata.name.getD "", (p.body.priority.map Int32.toInt).getD defaultPriority, .pcn⟩
  created := p.metadata.created
  subject := subject

theorem records_ok {p : PolycubePolicy} {service : Option Service} {rs : List Record}
    (h : records p service = .ok rs) :
    ∃ ns found, subject p ns service = .ok found ∧ (Policy.pcn p).Heads (headerFor p found.1) ∧
      rs = Direction.all.flatMap fun d =>
        directionRecords (headerFor p found.1) found.2 d (p.body.spec.rules d) := by
  simp only [records, bind, Except.bind, pure, Except.pure] at h
  split at h
  · cases h
  · rename_i ns hns
    split at h
    · cases h
    · rename_i found hfound
      refine ⟨ns, found, hfound, ⟨rfl, rfl, ?_⟩, (Except.ok.inj h).symm⟩
      exact (policyNamespace_ok hns).trans (congrArg some (subject_namespaceName hfound).symm)

/-- A record of a policy is one of a direction, with the subject and the default
ports that the target of the policy gives. -/
theorem mem_records {p : PolycubePolicy} {service : Option Service} {rs : List Record}
    {record : Record} (h : records p service = .ok rs) (hrecord : record ∈ rs) :
    ∃ ns found d, subject p ns service = .ok found ∧
      record ∈ directionRecords (headerFor p found.1) found.2 d (p.body.spec.rules d) := by
  obtain ⟨ns, found, hfound, -, rfl⟩ := records_ok h
  obtain ⟨d, -, hrecord⟩ := List.mem_flatMap.1 hrecord
  exact ⟨ns, found, d, hfound, hrecord⟩

end PolycubePolicy

end PodFirewall
