import PodFirewall.Proofs.Firewall.Known
import PodFirewall.Proofs.Firewall.Ranking
import PodFirewall.Proofs.Policy.Naming

/-!
The entries of a ledger under single operations. Whatever fails, the records
that apply in a direction are of this direction and have names of their own, and
a record that is applied takes the place of the one with its name.
-/

namespace PodFirewall

/-- Whether the records that apply have names of their own and stand in their
directions. -/
structure Ledger.Tidy (l : Ledger) : Prop where
  distinct : ∀ d, Distinct (l.applied.get d)
  direction : ∀ d, ∀ a ∈ l.applied.get d, a.record.direction = d

/-- Whether the records that apply are just those of one kind, and those that
applied before and are not of another kind. -/
def Ledger.Exchanged (into : Applied → Prop) (out : Record → Prop) (l l' : Ledger) : Prop :=
  ∀ d a, a ∈ l'.applied.get d ↔
    a.record.direction = d ∧ into a ∨ a ∈ l.applied.get d ∧ ¬out a.record

namespace Ledger.Exchanged

variable {into into' : Applied → Prop} {out out' : Record → Prop} {l l' l'' : Ledger}

theorem refl (l : Ledger) : Exchanged (fun _ => False) (fun _ => False) l l := by
  intro d a
  simp

theorem trans (h : Exchanged into out l l') (h' : Exchanged into' out' l' l'') :
    Exchanged (fun a => into' a ∨ into a ∧ ¬out' a.record) (fun r => out r ∨ out' r) l l'' := by
  intro d a
  rw [h' d a, h d a]
  tauto

/-- Other words for the kinds need only mean the same for records that applied
before and for those that apply in the end. -/
theorem congr (h : Exchanged into out l l') (hinto : ∀ a, into a ↔ into' a)
    (hout : ∀ d, ∀ a ∈ l.applied.get d, out a.record ↔ out' a.record) :
    Exchanged into' out' l l' := by
  intro d a
  rw [h d a, hinto]
  exact or_congr_right (and_congr_right fun ha => not_congr (hout d a ha))

end Ledger.Exchanged

/-- A record that is applied takes the place of the one with its name. -/
theorem Operation.perm_enters_apply {l : Ledger} {record : Record}
    (h : Distinct (l.applied.get record.direction)) (rules : List Rule) :
    (((Operation.apply record rules).enters l).get record.direction).Perm
      (⟨record, rules⟩ :: (l.applied.get record.direction).filter fun a =>
        a.record.name != record.name) := by
  rcases enters_apply_cases l record rules with ⟨pre, known, post, hsplit, hname, heq⟩ | heq <;>
    rw [heq]
  · rw [hsplit] at h
    rw [hsplit, ← hname, Site.filter_ne_of_split h]
    exact List.perm_middle
  · rw [Site.place_entries h]
    exact Site.inserted_perm _ _

namespace Site

variable {s : Site} {record : Record} {rules : List Rule}

theorem tidy_step (h : s.ledger.Tidy) (o : Operation) : (s.step o).2.ledger.Tidy := by
  rcases applied_step s o with ⟨-, hsame⟩ | happlied
  · rwa [hsame]
  · have hentries (d : Direction) : Distinct ((o.enters s.ledger).get d) ∧
        ∀ a ∈ (o.enters s.ledger).get d, a.record.direction = d := by
      rcases Operation.enters_cases s.ledger o d with heq | ⟨record, rules, rfl, rfl⟩
      · rw [heq]
        exact ⟨(h.distinct d).filter _, fun a ha => h.direction d a (List.mem_filter.1 ha).1⟩
      · have hdistinct := h.distinct record.direction
        have hperm := Operation.perm_enters_apply hdistinct rules
        refine ⟨hperm.symm.pairwise (List.pairwise_cons.2 ⟨fun a ha => ?_, hdistinct.filter _⟩)
          fun hne => Ne.symm hne, fun a ha => ?_⟩
        · exact Ne.symm (by simpa using (List.mem_filter.1 ha).2)
        · rcases Operation.mem_enters_apply ha with rfl | ha
          · rfl
          · exact h.direction _ a ha
    exact ⟨fun d => happlied ▸ (hentries d).1, fun d => happlied ▸ (hentries d).2⟩

/-- After a record was applied with success, no older version of it applies. -/
theorem mem_applied_apply (h : s.ledger.Tidy) (hok : (s.step (.apply record rules)).1 = .ok ())
    {d : Direction} {a : Applied}
    (ha : a ∈ (s.step (.apply record rules)).2.ledger.applied.get d) :
    a = ⟨record, rules⟩ ∨ a ∈ s.ledger.applied.get d ∧ a.record ≠ record := by
  rcases applied_step s (.apply record rules) with ⟨hfailed, -⟩ | happlied
  · exact absurd hok hfailed
  · rw [happlied] at ha
    by_cases hd : d = record.direction
    · subst hd
      have hperm := Operation.perm_enters_apply (h.distinct record.direction) rules
      refine (List.mem_cons.1 (hperm.subset ha)).imp_right fun ha => ?_
      obtain ⟨ha, hname⟩ := List.mem_filter.1 ha
      exact ⟨ha, fun heq => by simp [heq] at hname⟩
    · rcases Operation.enters_cases s.ledger (.apply record rules) d with heq | ⟨_, _, ho, hdir⟩
      · rw [heq] at ha
        have ha := (List.mem_filter.1 ha).1
        exact .inr ⟨ha, fun heq => hd (by rw [← h.direction d a ha, heq])⟩
      · cases ho
        exact absurd hdir.symm hd

/-- After a record was applied with success, it applies in place of all records
with its name. -/
theorem exchanged_apply (h : s.ledger.Tidy)
    (hnamed : ∀ d, ∀ a ∈ s.ledger.applied.get d, a.record.name = record.name →
      a.record.direction = record.direction)
    (hok : (s.step (.apply record rules)).1 = .ok ()) :
    Ledger.Exchanged (· = ⟨record, rules⟩) (·.name = record.name) s.ledger
      (s.step (.apply record rules)).2.ledger := by
  intro d a
  rcases applied_step s (.apply record rules) with ⟨hfailed, -⟩ | happlied
  · exact absurd hok hfailed
  · rw [happlied]
    by_cases hd : record.direction = d
    · subst hd
      have hperm := Operation.perm_enters_apply (h.distinct record.direction) rules
      rw [hperm.mem_iff, List.mem_cons, List.mem_filter, bne_iff_ne]
      refine or_congr_left (iff_and_self.2 fun ha => ?_)
      rw [ha]
    · have hentries := (Operation.enters_cases s.ledger (.apply record rules) d).resolve_right
        fun ⟨_, _, ho, hdir⟩ => hd (by cases ho; exact hdir)
      rw [hentries, List.mem_filter]
      constructor
      · rintro ⟨ha, -⟩
        exact .inr ⟨ha, fun hname => hd ((hnamed d a ha hname).symm.trans (h.direction d a ha))⟩
      · rintro (⟨hdir, rfl⟩ | ⟨ha, -⟩)
        · exact absurd hdir hd
        · exact ⟨ha, rfl⟩

/-- After names were taken away with success, no record with such a name
applies. -/
theorem exchanged_take {o : Operation} (ho : ∀ record rules, o ≠ .apply record rules)
    (hok : (s.step o).1 = .ok ()) :
    Ledger.Exchanged (fun _ => False) (fun r => o.takes r.name = true) s.ledger
      (s.step o).2.ledger := by
  intro d a
  rcases applied_step s o with ⟨hfailed, -⟩ | happlied
  · exact absurd hok hfailed
  · have hentries := (Operation.enters_cases s.ledger o d).resolve_right
      fun ⟨record, rules, heq, _⟩ => ho record rules heq
    rw [happlied, hentries, List.mem_filter]
    simp

end Site

end PodFirewall
