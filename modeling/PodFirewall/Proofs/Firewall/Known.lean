import PodFirewall.Proofs.Firewall.Evaluation
import PodFirewall.Proofs.Firewall.Exactness

/-!
What a ledger knows of a name: that rules of it are recorded, or that a record
of it applies. What the operations do to this can be read off the ledger alone,
whatever the chains hold and whoever else changes them. Rules are recorded only
under names that apply, and an operation that takes a name away and succeeds
leaves nothing that is known of it. If it fails, the name may be left over: it
has rules and does not apply any more.
-/

namespace PodFirewall

namespace Ledger

def HasRules (l : Ledger) (name : String) : Prop := ∃ d, l.recorded name d ≠ []

def Knows (l : Ledger) (name : String) : Prop := l.HasRules name ∨ ∃ d, Site.Named l d name

/-- Whether rules of a name are recorded though no record of it applies. -/
def LeftOver (l : Ledger) (name : String) : Prop := l.HasRules name ∧ ∀ d, ¬Site.Named l d name

theorem HasRules.congr {l l' : Ledger} {name : String} (h : l'.HasRules name)
    (hrules : l'.rules = l.rules) : l.HasRules name := by
  obtain ⟨d, hd⟩ := h
  refine ⟨d, ?_⟩
  rwa [recorded, hrules, ← recorded] at hd

theorem HasRules.mem_keys {l : Ledger} {name : String} (h : l.HasRules name) :
    name ∈ l.rules.keys := by
  obtain ⟨d, hd⟩ := h
  rw [OrdMap.mem_keys, Option.isSome_iff_ne_none]
  exact fun hnone => hd (recorded_eq_nil hnone d)

/-- Whether no name has rules in the second ledger that had none in the
first. -/
def Lessens (l l' : Ledger) : Prop := ∀ name d, l.recorded name d = [] → l'.recorded name d = []

namespace Lessens

variable {l l' l'' : Ledger}

theorem refl (l : Ledger) : Lessens l l := fun _ _ h => h

theorem trans (h : Lessens l l') (h' : Lessens l' l'') : Lessens l l'' :=
  fun name d hnone => h' name d (h name d hnone)

theorem deleted (l : Ledger) (d : Direction) (id : Nat) : Lessens l (l.deleted d id) := by
  intro name d' hnone
  by_cases hd : d' = d
  · subst hd
    rw [recorded_deleted_self, hnone]
    rfl
  · rwa [recorded_deleted_of_ne _ _ _ hd]

theorem hasRules (h : Lessens l l') {name : String} (hrules : l'.HasRules name) :
    l.HasRules name := by
  obtain ⟨d, hd⟩ := hrules
  exact ⟨d, fun hnone => hd (h name d hnone)⟩

end Lessens

end Ledger

namespace Rule

theorem insertDown_pairwise {r : Rule} {l : List Rule} (h : l.Pairwise fun a b => b.id ≤ a.id) :
    (insertDown r l).Pairwise fun a b => b.id ≤ a.id := by
  induction l with
  | nil => exact List.pairwise_singleton _ _
  | cons x rest ih =>
    obtain ⟨hx, hrest⟩ := List.pairwise_cons.1 h
    rw [insertDown]
    split
    · rename_i hle
      refine List.pairwise_cons.2 ⟨List.forall_mem_cons.2 ⟨hle, fun y hy => ?_⟩, h⟩
      exact Nat.le_trans (hx y hy) hle
    · rename_i hlt
      refine List.pairwise_cons.2 ⟨fun y hy => ?_, ih hrest⟩
      rcases List.mem_cons.1 ((insertDown_perm r rest).mem_iff.1 hy) with rfl | hy
      · omega
      · exact hx y hy

theorem sortDown_pairwise (l : List Rule) : (sortDown l).Pairwise fun a b => b.id ≤ a.id := by
  induction l with
  | nil => exact .nil
  | cons r rest ih => exact insertDown_pairwise ih

/-- Different numbers descend strictly. -/
theorem sortDown_strict {l : List Rule} (h : (l.map (·.id)).Nodup) :
    (sortDown l).Pairwise fun a b => b.id < a.id := by
  have hne : (sortDown l).Pairwise fun a b => a.id ≠ b.id :=
    List.pairwise_map.1 (((sortDown_perm l).map _).nodup_iff.2 h)
  exact ((sortDown_pairwise l).and hne).imp fun both => Nat.lt_of_le_of_ne both.1 both.2.symm

end Rule

namespace Site

open Ledger (HasRules Knows LeftOver Lessens)

variable {s : Site} {name : String}

/-! ### Rules that are deleted -/

theorem lessens_deleteEach (d : Direction) (rules : List Rule) (out : Deletion) (s : Site) :
    Lessens s.ledger (deleteEach d rules out s).2.ledger := by
  induction rules generalizing out s with
  | nil => exact .refl _
  | cons r rest ih =>
    unfold deleteEach
    split <;> rename_i b _
    · exact ih _ { s with backend := b }
    · exact (Lessens.deleted s.ledger d r.id).trans
        (ih _ { s with backend := b, ledger := s.ledger.deleted d r.id })

theorem recorded_deleteEach_of_ne {d d' : Direction} (h : d' ≠ d) (rules : List Rule)
    (out : Deletion) (s : Site) (name : String) :
    (deleteEach d rules out s).2.ledger.recorded name d' = s.ledger.recorded name d' := by
  induction rules generalizing out s with
  | nil => rfl
  | cons r rest ih =>
    unfold deleteEach
    split
    · exact ih _ _
    · exact (ih _ _).trans (Ledger.recorded_deleted_of_ne _ _ _ h)

theorem length_failed_deleteEach (d : Direction) (rules : List Rule) (out : Deletion) (s : Site) :
    out.failed.length ≤ (deleteEach d rules out s).1.failed.length := by
  have hcount : s.backend.failures (fun _ => true) + _ = _ :=
    failures_deleteEach (fun _ _ => rfl) d rules out s
  have hmono := (Worked.deleteEach d rules out s).failures_le fun _ => true
  omega

/-- Once rules were deleted from the last to the first and none of them is left
over, no name has rules with their numbers. -/
theorem recorded_deleteEach {d : Direction} {rules : List Rule} {out : Deletion}
    (hdown : rules.Pairwise fun a b => b.id ≤ a.id)
    (hids : ∀ x ∈ s.ledger.recorded name d, ∃ r ∈ rules, r.id = x.id)
    (hnone : (deleteEach d rules out s).1.failed = []) :
    (deleteEach d rules out s).2.ledger.recorded name d = [] := by
  induction rules generalizing out s with
  | nil =>
    refine List.eq_nil_iff_forall_not_mem.2 fun x hx => ?_
    obtain ⟨r, hr, -⟩ := hids x hx
    cases hr
  | cons r rest ih =>
    obtain ⟨hle, hrest⟩ := List.pairwise_cons.1 hdown
    unfold deleteEach at hnone ⊢
    split at hnone
    · rename_i b _
      have hmore := length_failed_deleteEach d rest { out with failed := r :: out.failed }
        { s with backend := b }
      rw [hnone] at hmore
      cases hmore
    · rename_i b hdelete
      refine ih hrest (fun x hx => ?_) hnone
      -- the rules that stay are in front of the one that went, so they keep their numbers
      rw [Ledger.recorded_deleted_self, Ledger.without, List.mem_map] at hx
      obtain ⟨y, hy, rfl⟩ := hx
      obtain ⟨hmem, hid⟩ := List.mem_filter.1 hy
      obtain ⟨r', hr', heq⟩ := hids y hmem
      rcases List.mem_cons.1 hr' with rfl | hr'
      · simp [heq] at hid
      · have hle' := hle r' hr'
        have hne : y.id ≠ r.id := by simpa using hid
        refine ⟨r', hr', ?_⟩
        rw [Rule.shift]
        split
        · omega
        · exact heq

theorem lessens_remove (s : Site) (d : Direction) (rules : List Rule) :
    Lessens s.ledger (s.remove d rules).2.ledger := by
  have hdeleted := lessens_deleteEach d (Rule.sortDown rules) ⟨[], false⟩ s
  unfold remove
  split
  · exact .refl _
  · dsimp only
    split <;> exact hdeleted

theorem recorded_remove_of_ne {d d' : Direction} (h : d' ≠ d) (s : Site) (rules : List Rule)
    (name : String) : (s.remove d rules).2.ledger.recorded name d' = s.ledger.recorded name d' := by
  have hdeleted := recorded_deleteEach_of_ne h (Rule.sortDown rules) ⟨[], false⟩ s name
  unfold remove
  split
  · rfl
  · dsimp only
    split <;> exact hdeleted

theorem recorded_remove {d : Direction} {rules : List Rule}
    (hids : ∀ x ∈ s.ledger.recorded name d, x ∈ rules) (hnone : (s.remove d rules).1 = []) :
    (s.remove d rules).2.ledger.recorded name d = [] := by
  have hdeleted (h : (deleteEach d (Rule.sortDown rules) ⟨[], false⟩ s).1.failed = []) :=
    recorded_deleteEach (Rule.sortDown_pairwise rules)
      (fun x hx => ⟨x, (Rule.sortDown_perm rules).mem_iff.2 (hids x hx), rfl⟩) h
  unfold remove at hnone ⊢
  split
  · rename_i hempty
    obtain rfl := List.isEmpty_iff.1 hempty
    exact List.eq_nil_iff_forall_not_mem.2 fun x hx => List.not_mem_nil (hids x hx)
  · rename_i hempty
    rw [if_neg hempty] at hnone
    dsimp only at hnone ⊢
    split at hnone <;> rename_i hany
    · rw [if_pos hany]
      exact hdeleted hnone
    · rw [if_neg hany]
      exact hdeleted hnone

theorem lessens_ceaseRules (s : Site) (name : String) :
    Lessens s.ledger (s.ceaseRules name).2.ledger := by
  unfold ceaseRules
  split
  · exact .refl _
  · exact (lessens_remove s .incoming _).trans (lessens_remove _ .outgoing _)

/-- A name that was ceased with success has no rules left. -/
theorem not_hasRules_ceaseRules (hok : (s.ceaseRules name).1 = .ok ()) :
    ¬(s.ceaseRules name).2.ledger.HasRules name := by
  rintro ⟨d, hd⟩
  unfold ceaseRules at hok hd
  split at hok
  · rename_i hunknown
    simp only [hunknown] at hd
    exact hd (Ledger.recorded_eq_nil hunknown d)
  · rename_i known hknown
    simp only [hknown] at hd
    have hnone : (s.remove .incoming known.incoming).1 = [] ∧
        ((s.remove .incoming known.incoming).2.remove .outgoing known.outgoing).1 = [] := by
      dsimp only at hok
      split at hok
      · rename_i hcount
        exact ⟨List.length_eq_zero_iff.1 (by omega), List.length_eq_zero_iff.1 (by omega)⟩
      · cases hok
    have hin : (s.remove .incoming known.incoming).2.ledger.recorded name .incoming = [] :=
      recorded_remove (fun x hx => by rwa [Ledger.recorded_eq hknown] at hx) hnone.1
    have hout : ((s.remove .incoming known.incoming).2.remove .outgoing
        known.outgoing).2.ledger.recorded name .outgoing = [] :=
      recorded_remove (fun x hx => by
        rwa [recorded_remove_of_ne (by decide), Ledger.recorded_eq hknown] at hx) hnone.2
    cases d with
    | incoming => exact hd ((recorded_remove_of_ne (by decide) _ _ _).trans hin)
    | outgoing => exact hd hout

theorem lessens_ceaseEach (names : List String) (out : Outcome) (s : Site) :
    Lessens s.ledger (ceaseEach names out s).2.ledger := by
  induction names generalizing out s with
  | nil => exact .refl _
  | cons first rest ih => exact (lessens_ceaseRules s first).trans (ih _ _)

theorem not_hasRules_ceaseEach {names : List String} {out : Outcome}
    (hok : (ceaseEach names out s).1 = .ok ()) :
    out = .ok () ∧ ∀ name ∈ names, ¬(ceaseEach names out s).2.ledger.HasRules name := by
  induction names generalizing out s with
  | nil => exact ⟨hok, by simp⟩
  | cons first rest ih =>
    obtain ⟨hlater, hgone⟩ := ih hok
    obtain ⟨hout, hfirst⟩ := Outcome.later_eq_ok.1 hlater
    refine ⟨hout, List.forall_mem_cons.2 ⟨fun hrules => ?_, hgone⟩⟩
    exact not_hasRules_ceaseRules hfirst ((lessens_ceaseEach rest _ _).hasRules hrules)

theorem lessens_shrink (s : Site) (i : Nat) (record : Record) (rules : List Rule) :
    Lessens s.ledger (s.shrink i record rules).2.ledger := by
  intro name d hnone
  unfold shrink
  exact lessens_remove _ _ _ name d hnone

/-! ### Rules that are appended -/

/-- Appending applied records adds no rules to other names. -/
theorem recorded_injectEach (d : Direction) {applied : List Applied} (s : Site)
    (hname : ∀ a ∈ applied, a.record.name ≠ name) (d' : Direction) :
    (injectEach d applied s).2.ledger.recorded name d' = s.ledger.recorded name d' := by
  induction applied generalizing s with
  | nil => rfl
  | cons a rest ih =>
    obtain ⟨ha, hrest⟩ := List.forall_mem_cons.1 hname
    have hledger := inject_ledger s d a.rules
    unfold injectEach
    split <;> rename_i hinject <;> rw [hinject] at hledger
    · rw [hledger]
    · rw [ih _ hrest, hledger]
      exact Ledger.recorded_record_of_ne _ _ (.inl (Ne.symm ha))

/-- Resplicing records rules only for the records that it appends. -/
theorem hasRules_resplice {d : Direction} {start : Nat}
    (h : (s.resplice d start).2.ledger.HasRules name) :
    s.ledger.HasRules name ∨ Named s.ledger d name := by
  have hlessens := lessens_ceaseEach (((s.ledger.applied.get d).drop start).map (·.record.name))
    (.ok ()) s
  by_cases hname : ∀ a ∈ (s.ledger.applied.get d).drop start, a.record.name ≠ name
  · left
    unfold resplice at h
    dsimp only at h
    split at h <;> rename_i hceased <;> rw [hceased] at hlessens
    · exact hlessens.hasRules h
    · obtain ⟨d', hd'⟩ := h
      rw [recorded_injectEach d _ hname] at hd'
      exact hlessens.hasRules ⟨d', hd'⟩
  · right
    push Not at hname
    obtain ⟨a, ha, heq⟩ := hname
    exact ⟨a, List.mem_of_mem_drop ha, heq⟩

/-! ### Records that apply -/

theorem mem_place {entries : List Applied} {record : Record} {rules : List Rule} {a : Applied}
    (h : a ∈ (place entries record rules).entries) : a = ⟨record, rules⟩ ∨ a ∈ entries := by
  have hinsert (rest : List Applied)
      (h : a ∈ rest.insertIdx (record.orderKey.offset (rest.map (·.record.orderKey)))
        ⟨record, rules⟩) : a = ⟨record, rules⟩ ∨ a ∈ rest := by
    rw [insertIdx_offset ⟨record, rules⟩ rest, (inserted_perm _ _).mem_iff, List.mem_cons] at h
    exact h
  unfold place at h
  split at h
  · exact (hinsert _ h).imp_right List.mem_of_mem_eraseIdx
  · exact hinsert _ h

theorem named_place {entries : List Applied} (record : Record) (rules : List Rule)
    (h : ∃ a ∈ entries, a.record.name = name) :
    ∃ a ∈ (place entries record rules).entries, a.record.name = name := by
  have hinsert {rest : List Applied} {a : Applied} (h : a = ⟨record, rules⟩ ∨ a ∈ rest) :
      a ∈ rest.insertIdx (record.orderKey.offset (rest.map (·.record.orderKey)))
        ⟨record, rules⟩ := by
    rw [insertIdx_offset ⟨record, rules⟩ rest, (inserted_perm _ _).mem_iff]
    exact List.mem_cons.2 h
  obtain ⟨a, ha, rfl⟩ := h
  unfold place
  split
  · rename_i i hi
    obtain ⟨pre, x, post, rfl, rfl, hx, -⟩ := findIdx?_split hi
    dsimp only
    rcases List.mem_append.1 ha with hpre | hpost
    · exact ⟨a, hinsert (.inr (by simp [hpre, List.eraseIdx_append_of_length_le])), rfl⟩
    · rcases List.mem_cons.1 hpost with rfl | hpost
      · exact ⟨⟨record, rules⟩, hinsert (.inl rfl), (beq_iff_eq.1 hx).symm⟩
      · exact ⟨a, hinsert (.inr (by simp [hpost, List.eraseIdx_append_of_length_le])), rfl⟩
  · exact ⟨a, hinsert (.inr ha), rfl⟩

end Site

namespace Operation

def takes (name : String) : Operation → Bool
  | .apply _ _ => false
  | .cease name' => name == name'
  | .ceaseParent dialect parent => Record.belongsTo dialect parent name

/-- The records that apply after an operation that finds the firewall, whatever
fails then. -/
def enters (l : Ledger) : Operation → PerDirection (List Applied)
  | .apply record rules =>
    match Site.shrinkable? l record rules with
    | some i => l.applied.modify record.direction fun entries => entries.set i ⟨record, rules⟩
    | none => l.applied.set record.direction
        (Site.place (l.applied.get record.direction) record rules).entries
  | .cease name => (l.retire (· == name)).applied
  | .ceaseParent dialect parent => (l.retire (Record.belongsTo dialect parent)).applied

variable {l : Ledger} {o : Operation} {d : Direction} {record : Record} {rules : List Rule}

/-- Only the direction of a record that is applied is not just filtered. -/
theorem enters_cases (l : Ledger) (o : Operation) (d : Direction) :
    (o.enters l).get d = (l.applied.get d).filter (fun a => !o.takes a.record.name) ∨
      ∃ record rules, o = .apply record rules ∧ record.direction = d := by
  cases o with
  | apply record rules =>
    by_cases hd : record.direction = d
    · exact .inr ⟨record, rules, rfl, hd⟩
    · left
      have hall : ((l.applied.get d).filter fun a =>
          !(Operation.apply record rules).takes a.record.name) = l.applied.get d :=
        List.filter_eq_self.2 fun _ _ => rfl
      rw [hall, enters]
      split
      · exact PerDirection.get_modify_of_ne _ _ (Ne.symm hd)
      · exact PerDirection.get_set_of_ne _ _ (Ne.symm hd)
  | cease name =>
    left
    rw [enters, Ledger.retire, PerDirection.get_map]
    rfl
  | ceaseParent dialect parent =>
    left
    rw [enters, Ledger.retire, PerDirection.get_map]
    rfl

/-- A record that is applied is put in the place of the one that it shrinks, or
is placed anew. -/
theorem enters_apply_cases (l : Ledger) (record : Record) (rules : List Rule) :
    (∃ pre known post, l.applied.get record.direction = pre ++ known :: post ∧
        known.record.name = record.name ∧
        ((Operation.apply record rules).enters l).get record.direction =
          pre ++ ⟨record, rules⟩ :: post) ∨
      ((Operation.apply record rules).enters l).get record.direction =
        (Site.place (l.applied.get record.direction) record rules).entries := by
  rw [enters]
  cases hquiet : Site.shrinkable? l record rules with
  | some i =>
    obtain ⟨pre, known, post, hsplit, rfl, hname, -⟩ := Site.shrinkable_cases hquiet
    refine .inl ⟨pre, known, post, hsplit, hname, ?_⟩
    dsimp only
    rw [PerDirection.get_modify_self, hsplit, Site.set_split]
  | none => exact .inr (PerDirection.get_set_self _ _ _)

theorem mem_enters_apply {a : Applied}
    (h : a ∈ ((Operation.apply record rules).enters l).get record.direction) :
    a = ⟨record, rules⟩ ∨ a ∈ l.applied.get record.direction := by
  rcases enters_apply_cases l record rules with ⟨pre, known, post, hsplit, -, heq⟩ | heq <;>
    rw [heq] at h
  · rw [List.mem_append, List.mem_cons] at h
    rw [hsplit, List.mem_append, List.mem_cons]
    exact (or_left_comm.1 h).imp_right fun h => h.imp_right .inr
  · exact Site.mem_place h

/-- A record that is applied takes away no name: the one whose place it takes has
the same. -/
theorem named_enters_apply {name : String}
    (h : ∃ a ∈ l.applied.get record.direction, a.record.name = name) :
    ∃ a ∈ ((Operation.apply record rules).enters l).get record.direction,
      a.record.name = name := by
  rcases enters_apply_cases l record rules with ⟨pre, known, post, hsplit, hname, heq⟩ | heq <;>
    rw [heq]
  · obtain ⟨a, ha, rfl⟩ := h
    rw [hsplit] at ha
    rcases List.mem_append.1 ha with hpre | hpost
    · exact ⟨a, by simp [hpre], rfl⟩
    · rcases List.mem_cons.1 hpost with rfl | hpost
      · exact ⟨⟨record, rules⟩, by simp, hname.symm⟩
      · exact ⟨a, by simp [hpost], rfl⟩
  · exact Site.named_place record rules h

end Operation

namespace Site

open Ledger (HasRules Knows LeftOver Lessens)

variable {s : Site} {o : Operation} {name : String} {d : Direction}

theorem Named.congr {l l' : Ledger} (h : Named l d name) (happlied : l'.applied = l.applied) :
    Named l' d name := by
  rw [Named, happlied]
  exact h

/-! ### Whole operations -/

/-- An operation that does not find the firewall fails and changes nothing. -/
theorem applied_step (s : Site) (o : Operation) :
    (s.step o).1 ≠ .ok () ∧ (s.step o).2.ledger = s.ledger ∨
      (s.step o).2.ledger.applied = o.enters s.ledger := by
  obtain ⟨b, -, ⟨e, -, hstep⟩ | ⟨-, ⟨record, rules, i, rfl, hquiet, hstep⟩ | ⟨hquiet, hstep⟩⟩⟩ :=
    step_cases s o <;> rw [hstep]
  · exact .inl ⟨nofun, rfl⟩
  · right
    have hshrinkable : shrinkable? s.ledger record rules = some i := hquiet
    rw [(worked_shrink _ i record rules).applied, Operation.enters, hshrinkable]
  · right
    rw [settle, (tuned_updateDefaults _).applied]
    cases o with
    | cease name => exact applied_work_cease _ name
    | ceaseParent dialect parent => exact applied_work_ceaseParent _ dialect parent
    | apply record rules =>
      have hnone : shrinkable? s.ledger record rules = none := hquiet
      rw [applied_work_apply, Operation.enters, hnone]

/-- The records that apply after an operation applied before it, but for the one
it is about. -/
theorem mem_applied_step {a : Applied} (h : a ∈ (s.step o).2.ledger.applied.get d) :
    a ∈ s.ledger.applied.get d ∨ ∃ record rules, o = .apply record rules ∧ a = ⟨record, rules⟩ := by
  rcases applied_step s o with ⟨-, hsame⟩ | happlied
  · exact .inl (hsame ▸ h)
  · rw [happlied] at h
    rcases Operation.enters_cases s.ledger o d with heq | ⟨record, rules, rfl, rfl⟩
    · rw [heq] at h
      exact .inl (List.mem_filter.1 h).1
    · exact (Operation.mem_enters_apply h).symm.imp_right fun heq => ⟨record, rules, rfl, heq⟩

/-- A name keeps applying unless an operation takes it away. -/
theorem named_step (h : Named s.ledger d name) (hkeep : o.takes name = false) :
    Named (s.step o).2.ledger d name := by
  rcases applied_step s o with ⟨-, hsame⟩ | happlied
  · rwa [hsame]
  · rw [Named, happlied]
    rcases Operation.enters_cases s.ledger o d with heq | ⟨record, rules, rfl, rfl⟩
    · obtain ⟨a, ha, rfl⟩ := h
      rw [heq]
      exact ⟨a, List.mem_filter.2 ⟨ha, by rw [hkeep]; rfl⟩, rfl⟩
    · exact Operation.named_enters_apply h

/-- A name that was taken away with success does not apply. -/
theorem not_named_step (htakes : o.takes name = true) (hok : (s.step o).1 = .ok ()) :
    ¬Named (s.step o).2.ledger d name := by
  rcases applied_step s o with ⟨hfailed, -⟩ | happlied
  · exact absurd hok hfailed
  · rw [Named, happlied]
    rcases Operation.enters_cases s.ledger o d with heq | ⟨record, rules, rfl, -⟩
    · rintro ⟨a, ha, rfl⟩
      rw [heq, List.mem_filter, htakes] at ha
      cases ha.2
    · cases htakes

theorem hasRules_work (h : (s.work o).2.ledger.HasRules name) :
    s.ledger.HasRules name ∨ ∃ d, Named (s.work o).2.ledger d name := by
  cases o with
  | cease name' =>
    have hless := lessens_ceaseRules { s with ledger := s.ledger.retire (· == name') } name'
    exact .inl (hless.hasRules h)
  | ceaseParent dialect parent =>
    have hless := lessens_ceaseEach
      (((s.ledger.retire (Record.belongsTo dialect parent)).rules.keys).filter
        (Record.belongsTo dialect parent)) (.ok ())
      { s with ledger := s.ledger.retire (Record.belongsTo dialect parent) }
    exact .inl (hless.hasRules h)
  | apply record rules =>
    refine (hasRules_resplice h).imp_right fun hnamed => ⟨record.direction, ?_⟩
    exact hnamed.congr (applied_work_apply s record rules)

/-- Rules are recorded only under names that apply. -/
theorem hasRules_step (h : (s.step o).2.ledger.HasRules name) :
    s.ledger.HasRules name ∨ ∃ d, Named (s.step o).2.ledger d name := by
  obtain ⟨b, -, ⟨e, -, hstep⟩ | ⟨-, ⟨record, rules, i, rfl, hquiet, hstep⟩ | ⟨-, hstep⟩⟩⟩ :=
    step_cases s o <;> rw [hstep] at h ⊢
  · exact .inl h
  · exact .inl ((lessens_shrink { s with backend := b } i record rules).hasRules h)
  · rw [settle] at h ⊢
    have htuned := tuned_updateDefaults (work { s with backend := b } o).2
    refine (hasRules_work (h.congr htuned.rules)).imp_right fun hnamed => ?_
    exact hnamed.imp fun d hd => hd.congr htuned.applied

/-- An operation makes no name known but that of the record that it applies. -/
theorem knows_step (h : (s.step o).2.ledger.Knows name) :
    s.ledger.Knows name ∨ ∃ record rules, o = .apply record rules ∧ record.name = name := by
  have hnamed : (∃ d, Named (s.step o).2.ledger d name) →
      s.ledger.Knows name ∨ ∃ record rules, o = .apply record rules ∧ record.name = name := by
    rintro ⟨d, a, ha, rfl⟩
    rcases mem_applied_step ha with ha | ⟨record, rules, rfl, rfl⟩
    · exact .inl (.inr ⟨d, a, ha, rfl⟩)
    · exact .inr ⟨record, rules, rfl, rfl⟩
  rcases h with hrules | happlies
  · rcases hasRules_step hrules with hrules | happlies
    · exact .inl (.inl hrules)
    · exact hnamed happlies
  · exact hnamed happlies

/-- A name that was taken away with success has no rules. -/
theorem not_hasRules_step (htakes : o.takes name = true) (hok : (s.step o).1 = .ok ()) :
    ¬(s.step o).2.ledger.HasRules name := by
  obtain ⟨b, -, ⟨e, -, hstep⟩ | ⟨-, ⟨record, rules, i, rfl, hquiet, hstep⟩ | ⟨-, hstep⟩⟩⟩ :=
    step_cases s o <;> rw [hstep] at hok ⊢
  · cases hok
  · cases htakes
  · rw [settle] at hok ⊢
    have hceased := (Outcome.both_eq_ok.1 hok).1
    have htuned := tuned_updateDefaults (work { s with backend := b } o).2
    intro hrules
    have hrules := hrules.congr htuned.rules
    cases o with
    | apply record rules => cases htakes
    | cease name' =>
      rw [Operation.takes, beq_iff_eq] at htakes
      subst htakes
      exact not_hasRules_ceaseRules hceased hrules
    | ceaseParent dialect parent =>
      obtain ⟨-, hgone⟩ := not_hasRules_ceaseEach hceased
      have hkey := ((lessens_ceaseEach _ _ _).hasRules hrules).mem_keys
      exact hgone name (List.mem_filter.2 ⟨hkey, htakes⟩) hrules

/-- Nothing is known any more of a name that was taken away with success. -/
theorem not_knows_step (htakes : o.takes name = true) (hok : (s.step o).1 = .ok ()) :
    ¬(s.step o).2.ledger.Knows name := by
  rintro (hrules | ⟨d, hnamed⟩)
  · exact not_hasRules_step htakes hok hrules
  · exact not_named_step htakes hok hnamed

end Site

end PodFirewall
