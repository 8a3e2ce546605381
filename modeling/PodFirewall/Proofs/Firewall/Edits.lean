import PodFirewall.Proofs.Firewall.Laid

/-!
How the functions that work on rules change the layouts. Appending puts the
rules of a name at the end of a layout. Removing thins it: what is not to be
removed stays where it is, and what could not be removed counts as left over.
Each lemma also says what a failure costs: a call that failed is in the log.
-/

namespace PodFirewall

namespace Outcome

theorem later_eq_ok {a b : Outcome} : a.later b = .ok () ↔ a = .ok () ∧ b = .ok () := by
  rcases a with _ | ⟨⟨⟩⟩ <;> rcases b with _ | ⟨⟨⟩⟩ <;> simp [later]

theorem both_eq_ok {a b : Outcome} : a.both b = .ok () ↔ a = .ok () ∧ b = .ok () := by
  rcases a with _ | ⟨⟨⟩⟩ <;> rcases b with _ | ⟨⟨⟩⟩ <;> simp [both]

end Outcome

namespace Rule

theorem insertDown_perm (r : Rule) (l : List Rule) : (insertDown r l).Perm (r :: l) := by
  induction l with
  | nil => exact .refl _
  | cons x rest ih =>
    rw [insertDown]
    split
    · exact .refl _
    · exact (ih.cons x).trans (.swap r x rest)

theorem sortDown_perm (l : List Rule) : (sortDown l).Perm l := by
  induction l with
  | nil => exact .refl _
  | cons r rest ih => exact (insertDown_perm r _).trans (ih.cons r)

theorem insertDown_of_lt {r : Rule} {l : List Rule} (h : ∀ x ∈ l, r.id < x.id) :
    insertDown r l = l ++ [r] := by
  induction l with
  | nil => rfl
  | cons x rest ih =>
    have hx : ¬x.id ≤ r.id := Nat.not_le.2 (h x List.mem_cons_self)
    rw [insertDown, if_neg hx, ih fun y hy => h y (List.mem_cons_of_mem _ hy)]
    rfl

/-- Rules that ascend are turned around. -/
theorem sortDown_eq_reverse {l : List Rule} (h : l.Pairwise fun a b => a.id < b.id) :
    sortDown l = l.reverse := by
  induction l with
  | nil => rfl
  | cons r rest ih =>
    obtain ⟨hlt, hrest⟩ := List.pairwise_cons.1 h
    rw [sortDown, ih hrest, insertDown_of_lt fun x hx => hlt x (List.mem_reverse.1 hx),
      List.reverse_cons]

end Rule

namespace Site

variable {s : Site} {U : PerDirection Layout}

/-! ### The frame -/

namespace Worked

theorem read {s : Site} {c : Chain} {r : Except BackendError (List Rule)} {b : Backend}
    (h : s.backend.read s.name c = (r, b)) : Worked s { s with backend := b } := by
  unfold Backend.read at h
  split at h <;> rename_i hp <;> obtain ⟨-, rfl⟩ := Prod.mk.inj h <;> exact .perform hp nofun rfl

theorem find {s : Site} {r : Except BackendError Bool} {b : Backend}
    (h : s.backend.find s.name = (r, b)) : Worked s { s with backend := b } := by
  unfold Backend.find at h
  split at h <;> rename_i hp <;> obtain ⟨-, rfl⟩ := Prod.mk.inj h <;> exact .perform hp nofun rfl

theorem checkAlive (s : Site) : Worked s s.checkAlive.2 := by
  unfold Site.checkAlive
  split <;> exact .find ‹_›

theorem inject (s : Site) (d : Direction) (rules : List Rule) : Worked s (s.inject d rules).2 := by
  unfold Site.inject
  split
  · exact .refl s
  · split
    · exact .read ‹_›
    · rename_i b hread
      have hs := Worked.read hread
      dsimp only
      split
      · rename_i b' happend
        exact hs.trans (.perform (s := { s with backend := b }) happend nofun rfl)
      · rename_i b' happend
        have hs' := hs.trans (.perform (s := { s with backend := b }) happend nofun rfl)
        exact hs'.trans (.commit { s with backend := b' } d.chain)

theorem deleteEach (d : Direction) (rules : List Rule) (out : Deletion) (s : Site) :
    Worked s (Site.deleteEach d rules out s).2 := by
  induction rules generalizing out s with
  | nil => exact .refl s
  | cons r rest ih =>
    unfold Site.deleteEach
    split
    · rename_i b hdelete
      exact (Worked.perform hdelete nofun rfl).trans (ih _ _)
    · rename_i b hdelete
      have hledger : Worked { s with backend := b }
          { s with backend := b, ledger := s.ledger.deleted d r.id } := .ledger _ rfl rfl
      exact ((Worked.perform hdelete nofun rfl).trans hledger).trans (ih _ _)

theorem remove (s : Site) (d : Direction) (rules : List Rule) : Worked s (s.remove d rules).2 := by
  unfold Site.remove
  split
  · exact .refl s
  · have hs := Worked.deleteEach d (Rule.sortDown rules) ⟨[], false⟩ s
    split
    rename_i out s' hdeleted
    rw [hdeleted] at hs
    split
    · exact hs.trans (.commit _ _)
    · exact hs

theorem ceaseRules (s : Site) (name : String) : Worked s (s.ceaseRules name).2 := by
  unfold Site.ceaseRules
  split
  · exact .refl s
  · exact (Worked.remove s _ _).trans (.remove _ _ _)

theorem ceaseEach (names : List String) (out : Outcome) (s : Site) :
    Worked s (Site.ceaseEach names out s).2 := by
  induction names generalizing out s with
  | nil => exact .refl s
  | cons name rest ih => exact (Worked.ceaseRules s name).trans (ih _ _)

end Worked

/-! ### Deleting -/

theorem Laid.failed (hU : s.Laid U) {call : Call} {e : BackendError} {b : Backend}
    (h : s.backend.perform s.name call = (.error e, b)) : Laid { s with backend := b } U :=
  ⟨hU.holds.failed h, hU.records⟩

theorem Laid.commit (hU : s.Laid U) (c : Chain) :
    Laid { s with backend := (s.backend.perform s.name (.commit c)).2 } U :=
  ⟨hU.holds.commit c, hU.records⟩

theorem Laid.delete (hU : s.Laid U) {d : Direction} {id : Nat} {b : Backend}
    (h : s.backend.perform s.name (.delete d.chain id) = (.ok (), b)) :
    Laid { s with backend := b, ledger := s.ledger.deleted d id }
      (U.set d ((U.get d).eraseIdx id)) :=
  ⟨hU.holds.delete h, hU.records.deleted d id⟩

/-- Whatever is to be deleted, the layouts only lose entries. -/
theorem Laid.deleteEach_sublist (hU : s.Laid U) (d : Direction) (rules : List Rule)
    (out : Deletion) :
    ∃ V, (deleteEach d rules out s).2.Laid (U.set d V) ∧ V.Sublist (U.get d) := by
  induction rules generalizing out s U with
  | nil => exact ⟨U.get d, by simpa [Site.deleteEach] using hU, .refl _⟩
  | cons r rest ih =>
    unfold Site.deleteEach
    split
    · rename_i hperform
      exact ih (hU.failed hperform) _
    · rename_i hperform
      obtain ⟨V, hV, hsub⟩ := ih (hU.delete hperform) ⟨out.failed.map (Rule.shift r.id), true⟩
      rw [PerDirection.set_set] at hV
      rw [PerDirection.get_set_self] at hsub
      exact ⟨V, hV, hsub.trans (List.eraseIdx_sublist _ _)⟩

/-- Deleting entries of a test from the last to the first thins the layout. The
rules that are returned are as many as the entries that should have gone. -/
theorem Laid.deleteEach (hU : s.Laid U) {d : Direction} {q : Layout.Test} {rules : List Rule}
    (hdown : rules.Pairwise fun a b => b.id < a.id)
    (hq : ∀ r ∈ rules, ∃ e, (U.get d)[r.id]? = some e ∧ Layout.passes q e = true) (out : Deletion) :
    ∃ V, (Site.deleteEach d rules out s).2.Laid (U.set d V) ∧ Layout.Thinned q (U.get d) V ∧
      (Site.deleteEach d rules out s).1.failed.length +
          ((U.get d).filter (Layout.passes q)).length =
        out.failed.length + rules.length + (V.filter (Layout.passes q)).length := by
  induction rules generalizing out s U with
  | nil => exact ⟨U.get d, by simpa [Site.deleteEach] using hU, .refl _ _, rfl⟩
  | cons r rest ih =>
    obtain ⟨hlt, hrest⟩ := List.pairwise_cons.1 hdown
    unfold Site.deleteEach
    split
    · rename_i b hperform
      obtain ⟨V, hV, hthin, hcount⟩ := ih (hU.failed hperform) hrest
        (fun r' hr' => hq r' (List.mem_cons_of_mem _ hr')) { out with failed := r :: out.failed }
      refine ⟨V, hV, hthin, ?_⟩
      rw [hcount, List.length_cons, List.length_cons]
      omega
    · rename_i b hperform
      obtain ⟨e, he, hqe⟩ := hq r List.mem_cons_self
      obtain ⟨hthin, hgone⟩ := Layout.thinned_eraseIdx he hqe
      -- the places of the other rules are in front of the one that went
      have hq' : ∀ r' ∈ rest, ∃ e',
          ((U.set d ((U.get d).eraseIdx r.id)).get d)[r'.id]? = some e' ∧
            Layout.passes q e' = true := by
        intro r' hr'
        obtain ⟨e', he', hqe'⟩ := hq r' (List.mem_cons_of_mem _ hr')
        refine ⟨e', ?_, hqe'⟩
        rw [PerDirection.get_set_self, List.getElem?_eraseIdx_of_lt (hlt r' hr'), he']
      obtain ⟨V, hV, hthin', hcount⟩ := ih (hU.delete hperform) hrest hq'
        ⟨out.failed.map (Rule.shift r.id), true⟩
      rw [PerDirection.set_set] at hV
      rw [PerDirection.get_set_self] at hthin' hcount
      refine ⟨V, hV, hthin.trans hthin', ?_⟩
      rw [List.length_map] at hcount
      rw [List.length_cons]
      omega

/-- Each rule that is left over stands for a call that failed. -/
theorem failures_deleteEach {kind : Call → Bool} (hkind : ∀ c id, kind (.delete c id) = true)
    (d : Direction) (rules : List Rule) (out : Deletion) (s : Site) :
    s.backend.failures kind + (deleteEach d rules out s).1.failed.length =
      (deleteEach d rules out s).2.backend.failures kind + out.failed.length := by
  induction rules generalizing out s with
  | nil => rfl
  | cons r rest ih =>
    unfold Site.deleteEach
    split
    · rename_i b hperform
      have hrest := ih { out with failed := r :: out.failed } { s with backend := b }
      have hfail : b.failures kind = s.backend.failures kind + 1 :=
        Backend.failures_of_error hperform (hkind _ _)
      rw [List.length_cons] at hrest
      dsimp only at hrest
      omega
    · rename_i b hperform
      have hrest := ih ⟨out.failed.map (Rule.shift r.id), true⟩
        { s with backend := b, ledger := s.ledger.deleted d r.id }
      have hdone : b.failures kind = s.backend.failures kind := Backend.failures_of_ok hperform
      rw [List.length_map] at hrest
      dsimp only at hrest
      omega

theorem failures_le_ceaseRules (s : Site) (name : String) (kind : Call → Bool) :
    s.backend.failures kind ≤ (s.ceaseRules name).2.backend.failures kind :=
  (Worked.ceaseRules s name).failures_le kind

theorem failures_commit (s : Site) (c : Chain) (kind : Call → Bool) :
    s.backend.failures kind ≤ (s.backend.perform s.name (.commit c)).2.failures kind :=
  (Worked.commit s c).failures_le kind

/-! ### Removing -/

theorem Laid.remove_sublist (hU : s.Laid U) (d : Direction) (rules : List Rule) :
    ∃ V, (s.remove d rules).2.Laid (U.set d V) ∧ V.Sublist (U.get d) := by
  unfold Site.remove
  split
  · exact ⟨U.get d, by simpa using hU, .refl _⟩
  · obtain ⟨V, hV, hsub⟩ := hU.deleteEach_sublist d (Rule.sortDown rules) ⟨[], false⟩
    refine ⟨V, ?_, hsub⟩
    split
    rename_i out s' hdeleted
    rw [hdeleted] at hV
    split
    · exact hV.commit d.chain
    · exact hV

/-- Removing the rules of a test thins the layout, and returns as many rules as
are left of the test. -/
theorem Laid.remove (hU : s.Laid U) (d : Direction) (q : Layout.Test) :
    ∃ V, (s.remove d ((U.get d).chosen q)).2.Laid (U.set d V) ∧
      Layout.Thinned q (U.get d) V ∧
      (s.remove d ((U.get d).chosen q)).1.length = (V.filter (Layout.passes q)).length := by
  unfold Site.remove
  split
  · rename_i hnone
    rw [List.isEmpty_iff, Layout.chosen_eq_nil_iff] at hnone
    exact ⟨U.get d, by simpa using hU, .refl _ _, by rw [hnone]; rfl⟩
  · have hup := Layout.pairwise_chosen (U.get d) q
    have hsorted := Rule.sortDown_eq_reverse hup
    have hdown : (Rule.sortDown ((U.get d).chosen q)).Pairwise fun a b => b.id < a.id := by
      rw [hsorted, List.pairwise_reverse]
      exact hup
    have hq : ∀ r ∈ Rule.sortDown ((U.get d).chosen q),
        ∃ e, (U.get d)[r.id]? = some e ∧ Layout.passes q e = true := by
      intro r hr
      rw [hsorted, List.mem_reverse] at hr
      obtain ⟨e, he, hpass, -⟩ := Layout.mem_chosen.1 hr
      exact ⟨e, he, hpass⟩
    obtain ⟨V, hV, hthin, hcount⟩ := hU.deleteEach hdown hq ⟨[], false⟩
    rw [hsorted, List.length_reverse, Layout.length_chosen, ← hsorted] at hcount
    refine ⟨V, ?_, hthin, ?_⟩
    · split
      rename_i out s' hdeleted
      rw [hdeleted] at hV
      split
      · exact hV.commit d.chain
      · exact hV
    · split
      rename_i out s' hdeleted
      rw [hdeleted] at hcount
      have hleft : out.failed.length = (V.filter (Layout.passes q)).length := by
        rw [List.length_nil] at hcount
        dsimp only at hcount
        omega
      split <;> exact hleft

theorem failures_remove {kind : Call → Bool} (hkind : ∀ c id, kind (.delete c id) = true) (s : Site)
    (d : Direction) (rules : List Rule) :
    s.backend.failures kind + (s.remove d rules).1.length ≤
      (s.remove d rules).2.backend.failures kind := by
  unfold Site.remove
  split
  · exact Nat.le_refl _
  · have hcount := failures_deleteEach hkind d (Rule.sortDown rules) ⟨[], false⟩ s
    split
    rename_i out s' hdeleted
    rw [hdeleted] at hcount
    dsimp only [List.length_nil] at hcount
    split
    · have hcommit := failures_commit s' d.chain kind
      dsimp only
      omega
    · dsimp only
      omega

/-- Ceasing a name thins both layouts by its entries, and is a success only if
all of them went. -/
theorem Laid.ceaseRules (hU : s.Laid U) (name : String) :
    ∃ V, (s.ceaseRules name).2.Laid V ∧
      (∀ d, Layout.Thinned (Layout.ofName name) (U.get d) (V.get d)) ∧
      ((s.ceaseRules name).1 = .ok () →
        ∀ d, (V.get d).filter (Layout.passes (Layout.ofName name)) = []) := by
  unfold Site.ceaseRules
  split
  · rename_i hnone
    refine ⟨U, hU, fun d => .refl _ _, fun _ d => ?_⟩
    rw [← Layout.chosen_eq_nil_iff, ← hU.records.recorded, Ledger.recorded_eq_nil hnone]
  · rename_i known hknown
    have hrecorded (d : Direction) :
        known.get d = (U.get d).chosen (Layout.ofName name) := by
      rw [← hU.records.recorded, Ledger.recorded_eq hknown]
    -- the second removal finds its layout as it was, since the first one is about the other
    -- chain
    obtain ⟨V, hV, hthin, hleft⟩ := hU.remove .incoming (Layout.ofName name)
    rw [← hrecorded] at hV hleft
    obtain ⟨V', hV', hthin', hleft'⟩ := hV.remove .outgoing (Layout.ofName name)
    have hother : (U.set .incoming V).get .outgoing = U.get .outgoing := rfl
    rw [hother, ← hrecorded] at hV' hleft'
    refine ⟨_, hV', ?_, ?_⟩
    · intro d
      cases d
      · exact hthin
      · exact hthin'
    · intro hok d
      have hnone : (s.remove .incoming known.incoming).1.length +
          ((s.remove .incoming known.incoming).2.remove .outgoing known.outgoing).1.length =
            0 := by
        dsimp only at hok
        split at hok
        · assumption
        · cases hok
      obtain ⟨h, h'⟩ := Nat.add_eq_zero_iff.1 hnone
      cases d
      · exact List.length_eq_zero_iff.1 (hleft.symm.trans h)
      · exact List.length_eq_zero_iff.1 (hleft'.symm.trans h')

theorem failures_ceaseRules {kind : Call → Bool} (hkind : ∀ c id, kind (.delete c id) = true)
    (s : Site) (name : String) :
    (s.ceaseRules name).1 = .ok () ∨
      s.backend.failures kind < (s.ceaseRules name).2.backend.failures kind := by
  unfold Site.ceaseRules
  split
  · exact .inl rfl
  · rename_i known hknown
    have hin := failures_remove hkind s .incoming known.incoming
    have hout := failures_remove hkind (s.remove .incoming known.incoming).2 .outgoing
      known.outgoing
    dsimp only
    split
    · exact .inl rfl
    · right
      omega

/-- Ceasing names thins both layouts by their entries, and is a success only if
all of them went. -/
theorem Laid.ceaseEach (hU : s.Laid U) (names : List String) (out : Outcome) :
    ∃ V, (Site.ceaseEach names out s).2.Laid V ∧
      (∀ d, Layout.Thinned (Layout.ofNames names) (U.get d) (V.get d)) ∧
      ((Site.ceaseEach names out s).1 = .ok () →
        out = .ok () ∧ ∀ d, (V.get d).filter (Layout.passes (Layout.ofNames names)) = []) := by
  induction names generalizing out s U with
  | nil =>
    refine ⟨U, hU, fun d => .refl _ _, fun hok => ⟨hok, fun d => ?_⟩⟩
    exact List.filter_eq_nil_iff.2 fun e _ => by cases hn : e.1 <;> simp [hn]
  | cons name rest ih =>
    obtain ⟨V, hV, hthin, hgone⟩ := hU.ceaseRules name
    obtain ⟨W, hW, hthin', hgone'⟩ := ih hV (out.later (s.ceaseRules name).1)
    refine ⟨W, hW, fun d => ?_, fun hok => ?_⟩
    · have hfirst : Layout.Thinned (Layout.ofNames (name :: rest)) (U.get d) (V.get d) :=
        (hthin d).mono fun e he => by
          rw [Layout.passes_ofName, beq_iff_eq] at he
          simp [he]
      have hrest : Layout.Thinned (Layout.ofNames (name :: rest)) (V.get d) (W.get d) :=
        (hthin' d).mono fun e he => by
          cases hn : e.1 <;> simp_all
      exact hfirst.trans hrest
    · obtain ⟨hlater, hnone'⟩ := hgone' hok
      obtain ⟨rfl, hceased⟩ := Outcome.later_eq_ok.1 hlater
      refine ⟨rfl, fun d => List.filter_eq_nil_iff.2 fun e he hpass => ?_⟩
      -- later names only take entries out, so those of the first name do not come back
      have hmine := List.filter_eq_nil_iff.1 (hgone hceased d) e ((hthin' d).sublist.subset he)
      have hother := List.filter_eq_nil_iff.1 (hnone' d) e he
      cases hn : e.1 <;> simp_all

theorem failures_ceaseEach {kind : Call → Bool} (hkind : ∀ c id, kind (.delete c id) = true)
    (names : List String) (out : Outcome) (s : Site) :
    (ceaseEach names out s).1 = out ∨
      s.backend.failures kind < (ceaseEach names out s).2.backend.failures kind := by
  induction names generalizing out s with
  | nil => exact .inl rfl
  | cons name rest ih =>
    have hmono := (Worked.ceaseEach rest (out.later (s.ceaseRules name).1)
      (s.ceaseRules name).2).failures_le kind
    rcases failures_ceaseRules hkind s name with hok | hlt
    · have hstep := failures_le_ceaseRules s name kind
      rcases ih (out.later (s.ceaseRules name).1) (s.ceaseRules name).2 with hsame | hlt
      · exact .inl (hsame.trans (by rw [hok]; rfl))
      · exact .inr (Nat.lt_of_le_of_lt hstep hlt)
    · exact .inr (Nat.lt_of_lt_of_le hlt hmono)

/-- The layouts depend on no other part of the ledger. -/
theorem Laid.of_rules (hU : s.Laid U) {l : Ledger} (h : l.rules = s.ledger.rules) :
    Laid { s with ledger := l } U := by
  refine ⟨hU.holds, ⟨fun name d => ?_, fun name p hp => ?_⟩⟩
  · rw [← hU.records.recorded, Ledger.recorded, Ledger.recorded, h]
  · rw [h] at hp
    exact hU.records.noneBare name p hp

/-! ### Shrinking a record -/

/-- The test for the entries of a name that no rule of a list asks for. -/
def stale (name : String) (rules : List Rule) : Layout.Test :=
  fun n r => n == some name && !rules.any fun x => x.sameMatch r

/-- Shrinking a record thins the layout of its direction by the entries that are
not asked for any more. -/
theorem Laid.shrink (hU : s.Laid U) (i : Nat) (record : Record) (rules : List Rule) :
    ∃ V, (s.shrink i record rules).2.Laid (U.set record.direction V) ∧
      Layout.Thinned (stale record.name rules) (U.get record.direction) V ∧
      ((s.shrink i record rules).1 = .ok () →
        V.filter (Layout.passes (stale record.name rules)) = []) := by
  have hchosen : ((s.ledger.recorded record.name record.direction).filter fun r =>
      !rules.any fun n => n.sameMatch r) =
        (U.get record.direction).chosen (stale record.name rules) := by
    rw [hU.records.recorded]
    exact Layout.filter_chosen (U.get record.direction) (Layout.ofName record.name) fun r =>
      !rules.any fun x => x.sameMatch r
  have hU' : Laid { s with ledger := { s.ledger with
      applied := s.ledger.applied.modify record.direction fun entries =>
        entries.set i ⟨record, rules⟩ } } U := hU.of_rules rfl
  obtain ⟨V, hV, hthin, hleft⟩ := hU'.remove record.direction (stale record.name rules)
  rw [← hchosen] at hV hleft
  refine ⟨V, hV, hthin, fun hok => ?_⟩
  rw [Site.shrink] at hok
  dsimp only at hok
  split at hok
  · rename_i hnone
    rw [List.isEmpty_iff_length_eq_zero, hleft] at hnone
    exact List.length_eq_zero_iff.1 hnone
  · cases hok

theorem failures_shrink {kind : Call → Bool} (hkind : ∀ c id, kind (.delete c id) = true)
    (s : Site) (i : Nat) (record : Record) (rules : List Rule) :
    (s.shrink i record rules).1 = .ok () ∨
      s.backend.failures kind < (s.shrink i record rules).2.backend.failures kind := by
  have hcount := failures_remove hkind
    { s with ledger := { s.ledger with
      applied := s.ledger.applied.modify record.direction fun entries =>
        entries.set i ⟨record, rules⟩ } } record.direction
    ((s.ledger.recorded record.name record.direction).filter fun r =>
      !rules.any fun n => n.sameMatch r)
  unfold Site.shrink
  dsimp only
  split
  · exact .inl rfl
  · rename_i hsome
    right
    rw [List.isEmpty_iff_length_eq_zero] at hsome
    dsimp only at hcount
    omega

/-! ### Appending -/

theorem inject_ledger (s : Site) (d : Direction) (rules : List Rule) :
    (s.inject d rules).2.ledger = s.ledger := by
  unfold Site.inject
  split
  · rfl
  · split
    · rfl
    · dsimp only
      split <;> rfl

/-- Rules that were appended can be recorded, under whatever name, in a ledger
that followed the chain so far. -/
theorem Laid.inject_ok {s' : Site} {l : Ledger} {d : Direction} {rules added : List Rule}
    (hU : Laid { s with ledger := l } U) (h : s.inject d rules = (.ok added, s')) (name : String) :
    Laid { s' with ledger := l.record name d added }
      (U.set d (U.get d ++ rules.map fun r => (some name, r))) := by
  unfold Site.inject at h
  split at h
  · rename_i hempty
    obtain ⟨hadded, rfl⟩ := Prod.mk.inj h
    obtain rfl := Except.ok.inj hadded
    obtain rfl := List.isEmpty_iff.1 hempty
    simpa [Ledger.record] using hU
  · rename_i hne
    split at h
    · cases h
    · rename_i listing b hread
      have hb := hU.holds.read hread
      dsimp only at h
      split at h
      · cases h
      · rename_i b' happend
        obtain ⟨hadded, rfl⟩ := Prod.mk.inj h
        obtain rfl := Except.ok.inj hadded
        obtain ⟨hk, hb'⟩ := hb.append (mt List.isEmpty_iff.2 hne) happend name
        rw [hk]
        exact ⟨hb'.commit d.chain, hU.records.record name d rules⟩

/-- If rules cannot be appended, none of them is. -/
theorem Laid.inject_error {s' : Site} {l : Ledger} {d : Direction} {rules : List Rule}
    {e : BackendError} (hU : Laid { s with ledger := l } U)
    (h : s.inject d rules = (.error e, s')) : Laid { s' with ledger := l } U := by
  unfold Site.inject at h
  split at h
  · cases h
  · split at h
    · rename_i b hread
      obtain ⟨-, rfl⟩ := Prod.mk.inj h
      exact ⟨hU.holds.read hread, hU.records⟩
    · rename_i b hread
      have hb := hU.holds.read hread
      dsimp only at h
      split at h
      · rename_i b' happend
        obtain ⟨-, rfl⟩ := Prod.mk.inj h
        exact ⟨hb.failed happend, hU.records⟩
      · cases h

theorem failures_inject {kind : Call → Bool} (hkind : ∀ call, kind call = true) {s s' : Site}
    {d : Direction} {rules : List Rule} {e : BackendError}
    (h : s.inject d rules = (.error e, s')) :
    s.backend.failures kind < s'.backend.failures kind := by
  unfold Site.inject at h
  split at h
  · cases h
  · split at h
    · rename_i b hread
      obtain ⟨-, rfl⟩ := Prod.mk.inj h
      exact Backend.failures_of_read_error hread (hkind _)
    · rename_i b hread
      have hmono := (Worked.read hread).failures_le kind
      dsimp only at h hmono
      split at h
      · rename_i b' happend
        obtain ⟨-, rfl⟩ := Prod.mk.inj h
        have hfail := Backend.failures_of_error happend (hkind _)
        dsimp only
        omega
      · cases h

def entriesOf (applied : List Applied) : Layout :=
  applied.flatMap fun a => a.rules.map fun r => (some a.record.name, r)

@[simp] theorem entriesOf_nil : entriesOf [] = [] := rfl

@[simp] theorem entriesOf_cons (a : Applied) (rest : List Applied) :
    entriesOf (a :: rest) = (a.rules.map fun r => (some a.record.name, r)) ++ entriesOf rest := rfl

@[simp] theorem entriesOf_append (l m : List Applied) :
    entriesOf (l ++ m) = entriesOf l ++ entriesOf m := List.flatMap_append ..

theorem mem_entriesOf {applied : List Applied} {e : Option String × Rule} :
    e ∈ entriesOf applied ↔ ∃ a ∈ applied, ∃ r ∈ a.rules, (some a.record.name, r) = e := by
  rw [entriesOf, List.mem_flatMap]
  simp only [List.mem_map]

/-- Appending applied records puts the entries of the first ones at the end of
the layout: of all of them, if nothing fails. -/
theorem Laid.injectEach (hU : s.Laid U) (d : Direction) (applied : List Applied) :
    ∃ k, (Site.injectEach d applied s).2.Laid (U.set d (U.get d ++ entriesOf (applied.take k))) ∧
      ((Site.injectEach d applied s).1 = .ok () → applied.length ≤ k) := by
  induction applied generalizing s U with
  | nil => exact ⟨0, by simpa [Site.injectEach] using hU, fun _ => Nat.le_refl _⟩
  | cons a rest ih =>
    unfold Site.injectEach
    split
    · rename_i e s' hinject
      have hledger : s'.ledger = s.ledger := by
        rw [← inject_ledger s d a.rules, hinject]
      have hstep := hU.inject_error (l := s.ledger) hinject
      rw [← hledger] at hstep
      exact ⟨0, by simpa using hstep, nofun⟩
    · rename_i added s' hinject
      have hledger : s'.ledger = s.ledger := by
        rw [← inject_ledger s d a.rules, hinject]
      have hstep := hU.inject_ok (l := s.ledger) hinject a.record.name
      rw [← hledger] at hstep
      obtain ⟨k, hk, hall⟩ := ih hstep
      refine ⟨k + 1, ?_, fun hok => Nat.succ_le_succ (hall hok)⟩
      rw [PerDirection.set_set, PerDirection.get_set_self, List.append_assoc] at hk
      rw [List.take_succ_cons, entriesOf_cons]
      exact hk

theorem Worked.injectEach (d : Direction) (applied : List Applied) (s : Site) :
    Worked s (Site.injectEach d applied s).2 := by
  induction applied generalizing s with
  | nil => exact .refl s
  | cons a rest ih =>
    have hs := Worked.inject s d a.rules
    unfold Site.injectEach
    split
    · rename_i hinject
      rw [hinject] at hs
      exact hs
    · rename_i added s' hinject
      rw [hinject] at hs
      have hrecord := Worked.ledger s' (l := s'.ledger.record a.record.name d added)
        (Ledger.record_applied ..) (Ledger.record_defaults ..)
      exact (hs.trans hrecord).trans (ih _)

theorem failures_injectEach {kind : Call → Bool} (hkind : ∀ call, kind call = true)
    (d : Direction) (applied : List Applied) (s : Site) :
    (injectEach d applied s).1 = .ok () ∨
      s.backend.failures kind < (injectEach d applied s).2.backend.failures kind := by
  induction applied generalizing s with
  | nil => exact .inl rfl
  | cons a rest ih =>
    have hs := (Worked.inject s d a.rules).failures_le kind
    unfold Site.injectEach
    split
    · rename_i hinject
      exact .inr (failures_inject hkind hinject)
    · rename_i added s' hinject
      rw [hinject] at hs
      rcases ih { s' with ledger := s'.ledger.record a.record.name d added } with hok | hlt
      · exact .inl hok
      · exact .inr (Nat.lt_of_le_of_lt hs hlt)

/-! ### Putting records at their place -/

/-- Whether the entries of the applied records from a place on were taken out of
both layouts, and the first ones of them were appended again. -/
def Respliced (d : Direction) (tail : List Applied) (k : Nat) (U V : PerDirection Layout) : Prop :=
  let rest (d : Direction) := (U.get d).filter fun e =>
    !Layout.passes (Layout.ofNames (tail.map (·.record.name))) e
  V.get d = rest d ++ entriesOf (tail.take k) ∧ ∀ d', d' ≠ d → V.get d' = rest d'

/-- Resplicing either leaves some entries of the tail over, or builds the tail
anew as far as nothing fails. -/
theorem Laid.resplice (hU : s.Laid U) (d : Direction) (start : Nat) :
    ∃ V, (s.resplice d start).2.Laid V ∧
      (((s.resplice d start).1 ≠ .ok () ∧
          (∀ d', Layout.Thinned (Layout.ofNames
            (((s.ledger.applied.get d).drop start).map (·.record.name))) (U.get d') (V.get d')) ∧
          ∀ kind : Call → Bool, (∀ c id, kind (.delete c id) = true) →
            s.backend.failures kind < (s.resplice d start).2.backend.failures kind) ∨
        ∃ k, Respliced d ((s.ledger.applied.get d).drop start) k U V ∧
          ((s.resplice d start).1 = .ok () → ((s.ledger.applied.get d).drop start).length ≤ k)) := by
  obtain ⟨V, hV, hthin, hgone⟩ := hU.ceaseEach
    (((s.ledger.applied.get d).drop start).map (·.record.name)) (.ok ())
  have hcount (kind : Call → Bool) (hkind : ∀ c id, kind (.delete c id) = true) :=
    failures_ceaseEach hkind (((s.ledger.applied.get d).drop start).map (·.record.name)) (.ok ()) s
  unfold Site.resplice
  dsimp only
  split
  · rename_i e s' hceased
    rw [hceased] at hV hcount
    refine ⟨V, hV, .inl ⟨nofun, hthin, fun kind hkind => ?_⟩⟩
    exact (hcount kind hkind).resolve_left nofun
  · rename_i s' hceased
    rw [hceased] at hV hgone
    obtain ⟨k, hk, hall⟩ := hV.injectEach d ((s.ledger.applied.get d).drop start)
    refine ⟨_, hk, .inr ⟨k, ⟨?_, fun d' hd => ?_⟩, hall⟩⟩
    · rw [PerDirection.get_set_self, (hthin d).eq_of_none ((hgone rfl).2 d)]
    · rw [PerDirection.get_set_of_ne _ _ hd, (hthin d').eq_of_none ((hgone rfl).2 d')]

theorem Worked.resplice (s : Site) (d : Direction) (start : Nat) :
    Worked s (s.resplice d start).2 := by
  have hs := Worked.ceaseEach (((s.ledger.applied.get d).drop start).map (·.record.name)) (.ok ()) s
  unfold Site.resplice
  dsimp only
  split
  · rename_i hceased
    rw [hceased] at hs
    exact hs
  · rename_i hceased
    rw [hceased] at hs
    exact hs.trans (.injectEach _ _ _)

theorem failures_resplice {kind : Call → Bool} (hkind : ∀ call, kind call = true) (s : Site)
    (d : Direction) (start : Nat) :
    (s.resplice d start).1 = .ok () ∨
      s.backend.failures kind < (s.resplice d start).2.backend.failures kind := by
  have hceased := failures_ceaseEach (fun c id => hkind (.delete c id))
    (((s.ledger.applied.get d).drop start).map (·.record.name)) (.ok ()) s
  have hmono := (Worked.ceaseEach (((s.ledger.applied.get d).drop start).map (·.record.name))
    (.ok ()) s).failures_le kind
  unfold Site.resplice
  dsimp only
  split
  · rename_i h
    rw [h] at hceased
    exact .inr (hceased.resolve_left nofun)
  · rename_i s' h
    rw [h] at hmono
    rcases failures_injectEach hkind d ((s.ledger.applied.get d).drop start) s' with hok | hlt
    · exact .inl hok
    · exact .inr (Nat.lt_of_le_of_lt hmono hlt)

end Site

end PodFirewall
