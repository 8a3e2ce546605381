import PodFirewall.Proofs.Firewall.Filing

/-!
Chains in the order of their records. As long as no deletion fails, the entries of
an applied record are rules that it asks for, and stand in front of the entries of
the records behind it. Nothing is said of whether all rules are there, so appends
may fail, and names may be used in both directions.
-/

namespace PodFirewall

namespace Layout

def Ahead (L : Layout) (m n : String) : Prop :=
  L.Pairwise fun e e' => e.1 = some n → e'.1 ≠ some m

theorem Ahead.sublist {L M : Layout} {m n : String} (h : Ahead L m n) (hsub : M.Sublist L) :
    Ahead M m n := List.Pairwise.sublist hsub h

theorem ahead_append {L M : Layout} {m n : String} :
    Ahead (L ++ M) m n ↔ Ahead L m n ∧ Ahead M m n ∧
      ∀ e ∈ L, ∀ e' ∈ M, e.1 = some n → e'.1 ≠ some m := List.pairwise_append

theorem ahead_of_no_first {L : Layout} {m n : String} (h : ∀ e ∈ L, e.1 ≠ some m) : Ahead L m n :=
  List.pairwise_iff_getElem.2 fun _ _ _ hj _ _ => h _ (List.getElem_mem hj)

theorem ahead_of_no_second {L : Layout} {m n : String} (h : ∀ e ∈ L, e.1 ≠ some n) : Ahead L m n :=
  List.pairwise_iff_getElem.2 fun _ _ hi _ _ hn => absurd hn (h _ (List.getElem_mem hi))

end Layout

namespace Site

open Layout (Ahead)

variable {s : Site} {U V : PerDirection Layout}

/-! ### Entries in the order of their records -/

/-- Whether the entries of applied records are asked for by the records, and
stand in the order of the records. -/
structure Ranked (entries : List Applied) (L : Layout) : Prop where
  inOrder : InOrder entries
  distinct : Distinct entries
  asked : ∀ a ∈ entries, ∀ e ∈ L, e.1 = some a.record.name → ∃ r ∈ a.rules, r.body = e.2.body
  ahead : entries.Pairwise fun a b => Ahead L a.record.name b.record.name

theorem Distinct.eq {entries : List Applied} (h : Distinct entries) {a b : Applied}
    (ha : a ∈ entries) (hb : b ∈ entries) (hname : a.record.name = b.record.name) : a = b := by
  have hnodup : (entries.map (·.record.name)).Nodup := List.pairwise_map.2 h
  exact List.inj_on_of_nodup_map hnodup ha hb hname

theorem distinct_place {entries : List Applied} (h : Distinct entries) (record : Record)
    (rules : List Rule) : Distinct (place entries record rules).entries := by
  rw [place_entries h]
  have hcons : Distinct (⟨record, rules⟩ ::
      entries.filter fun a => a.record.name != record.name) := by
    refine List.pairwise_cons.2 ⟨fun a ha => ?_, h.filter _⟩
    exact Ne.symm (by simpa using (List.mem_filter.1 ha).2)
  exact (inserted_perm _ _).symm.pairwise hcons fun hne => Ne.symm hne

theorem inOrder_place {entries : List Applied} (h : InOrder entries) (hdistinct : Distinct entries)
    (record : Record) (rules : List Rule) : InOrder (place entries record rules).entries := by
  rw [place_entries hdistinct]
  exact inserted_inOrder (h.filter _)

/-- Records of other names keep their order when a record is placed. -/
theorem sublist_place {entries l : List Applied} (h : Distinct entries) {record : Record}
    (rules : List Rule) (hl : l.Sublist entries) (hne : ∀ a ∈ l, a.record.name ≠ record.name) :
    l.Sublist (place entries record rules).entries := by
  have hfilter : (l.filter fun a => a.record.name != record.name) = l :=
    List.filter_eq_self.2 fun a ha => by simpa using hne a ha
  have hrest := hl.filter fun a => a.record.name != record.name
  rw [hfilter] at hrest
  rw [place_entries h, inserted]
  refine hrest.trans ?_
  conv_lhs => rw [← List.takeWhile_append_dropWhile
    (p := fun a : Applied => a.record.orderKey.le record.orderKey)
    (l := entries.filter fun a => a.record.name != record.name)]
  exact (List.Sublist.refl _).append (List.sublist_cons_self _ _)

namespace Ranked

variable {entries entries' : List Applied} {L M : Layout}

theorem sublist (h : Ranked entries L) (hentries : entries'.Sublist entries)
    (hM : M.Sublist L) : Ranked entries' M where
  inOrder := h.inOrder.sublist hentries
  distinct := h.distinct.sublist hentries
  asked a ha e he := h.asked a (hentries.subset ha) e (hM.subset he)
  ahead := (h.ahead.sublist hentries).imp fun hab => hab.sublist hM

/-- A record that loses rules keeps its rank. -/
theorem shrink {pre post : List Applied} {known : Applied} (h : Ranked (pre ++ known :: post) L)
    {record : Record} (rules : List Rule) (hname : known.record.name = record.name)
    (hkey : known.record.orderKey = record.orderKey) :
    Ranked (pre ++ ⟨record, rules⟩ :: post)
      (L.filter fun e => !Layout.passes (stale record.name rules) e) := by
  have hnames : ((pre ++ ⟨record, rules⟩ :: post).map (·.record.name)) =
      (pre ++ known :: post).map (·.record.name) := by simp [hname]
  have hkeys : ((pre ++ ⟨record, rules⟩ :: post).map (·.record.orderKey)) =
      (pre ++ known :: post).map (·.record.orderKey) := by simp [hkey]
  have hsub : (L.filter fun e => !Layout.passes (stale record.name rules) e).Sublist L :=
    List.filter_sublist
  refine ⟨?_, ?_, fun a ha e he heq => ?_, ?_⟩
  · have horder : ((pre ++ known :: post).map (·.record.orderKey)).Pairwise
        fun k k' => k.le k' = true := List.pairwise_map.2 h.inOrder
    rw [← hkeys] at horder
    exact List.pairwise_map.1 horder
  · have hdistinct : ((pre ++ known :: post).map (·.record.name)).Pairwise (· ≠ ·) :=
      List.pairwise_map.2 h.distinct
    rw [← hnames] at hdistinct
    exact List.pairwise_map.1 hdistinct
  · obtain ⟨he, hfresh⟩ := List.mem_filter.1 he
    by_cases hrecord : a = ⟨record, rules⟩
    · -- what is left of the record is not stale
      subst hrecord
      simp only [Layout.passes, stale, heq, beq_self_eq_true, Bool.true_and, Bool.not_not,
        List.any_eq_true, Rule.sameMatch_iff] at hfresh
      exact hfresh
    · refine h.asked a ?_ e he heq
      rcases List.mem_append.1 ha with ha | ha
      · exact List.mem_append_left _ ha
      · exact List.mem_append_right _
          (List.mem_cons_of_mem _ ((List.mem_cons.1 ha).resolve_left hrecord))
  · have hahead : ((pre ++ known :: post).map (·.record.name)).Pairwise
        (Ahead (L.filter fun e => !Layout.passes (stale record.name rules) e)) :=
      List.pairwise_map.2 (h.ahead.imp fun hab => hab.sublist hsub)
    rw [← hnames] at hahead
    exact List.pairwise_map.1 hahead

theorem ahead_entriesOf {entries : List Applied} (h : Distinct entries) :
    entries.Pairwise fun a b => Ahead (entriesOf entries) a.record.name b.record.name := by
  have howner {l : List Applied} {e : Option String × Rule} (he : e ∈ entriesOf l) :
      ∃ a ∈ l, e.1 = some a.record.name := by
    obtain ⟨a, ha, r, -, rfl⟩ := mem_entriesOf.1 he
    exact ⟨a, ha, rfl⟩
  induction entries with
  | nil => exact .nil
  | cons c rest ih =>
    obtain ⟨hc, hrest⟩ := List.pairwise_cons.1 h
    have hfirst : ∀ e ∈ c.rules.map fun r => (some c.record.name, r), e.1 = some c.record.name := by
      intro e he
      obtain ⟨r, -, rfl⟩ := List.mem_map.1 he
      rfl
    have hnot : ∀ e ∈ entriesOf rest, e.1 ≠ some c.record.name := by
      intro e he hname
      obtain ⟨a, ha, hname'⟩ := howner he
      exact hc a ha (Option.some.inj (hname.symm.trans hname'))
    have hother {b : Applied} (hb : b ∈ rest) :
        ∀ e ∈ c.rules.map fun r => (some c.record.name, r), e.1 ≠ some b.record.name := by
      intro e he hname
      exact hc b hb (Option.some.inj ((hfirst e he).symm.trans hname))
    refine List.pairwise_cons.2 ⟨fun b hb => ?_, ?_⟩
    · rw [entriesOf_cons, Layout.ahead_append]
      exact ⟨Layout.ahead_of_no_second (hother hb), Layout.ahead_of_no_first hnot,
        fun e he e' he' _ => hnot e' he'⟩
    · refine (ih hrest).imp_of_mem fun {a b} ha hb hab => ?_
      rw [entriesOf_cons, Layout.ahead_append]
      exact ⟨Layout.ahead_of_no_first (hother ha), hab,
        fun e he e' _ hname => absurd hname (hother hb e he)⟩

/-- Records that are kept and records that are appended again. -/
theorem rebuild {kept tail : List Applied} (h : Ranked entries L)
    (hkept : kept.Sublist entries) (horder : InOrder (kept ++ tail))
    (hdistinct : Distinct (kept ++ tail)) (k : Nat) :
    Ranked (kept ++ tail) ((L.filter fun e =>
      !Layout.passes (Layout.ofNames (tail.map (·.record.name))) e) ++ entriesOf (tail.take k)) := by
  obtain ⟨-, htail, hcross⟩ := List.pairwise_append.1 hdistinct
  have hsub : (L.filter fun e =>
      !Layout.passes (Layout.ofNames (tail.map (·.record.name))) e).Sublist L := List.filter_sublist
  -- the part that stays has no entries of the tail, and the new part none of what is kept
  have hstays : ∀ e ∈ L.filter fun e =>
      !Layout.passes (Layout.ofNames (tail.map (·.record.name))) e,
      ∀ a ∈ tail, e.1 ≠ some a.record.name := by
    intro e he a ha hname
    have hpass := (List.mem_filter.1 he).2
    rw [Layout.passes_ofNames, hname, Option.any_some, Bool.not_eq_true', ← Bool.not_eq_true,
      List.contains_iff_mem] at hpass
    exact hpass (List.mem_map_of_mem ha)
  have hnew : ∀ e ∈ entriesOf (tail.take k), ∀ a ∈ kept, e.1 ≠ some a.record.name := by
    intro e he a ha hname
    obtain ⟨b, hb, r, -, rfl⟩ := mem_entriesOf.1 he
    exact hcross a ha b (List.mem_of_mem_take hb) (Option.some.inj hname).symm
  refine ⟨horder, hdistinct, fun a ha e he hname => ?_, ?_⟩
  · rcases List.mem_append.1 he with he | he
    · rcases List.mem_append.1 ha with ha | ha
      · exact h.asked a (hkept.subset ha) e (hsub.subset he) hname
      · exact absurd hname (hstays e he a ha)
    · obtain ⟨b, hb, r, hr, rfl⟩ := mem_entriesOf.1 he
      have hab : b = a := Distinct.eq hdistinct
        (List.mem_append_right _ (List.mem_of_mem_take hb)) ha (Option.some.inj hname)
      subst hab
      exact ⟨r, hr, rfl⟩
  · have htaken : (entriesOf (tail.take k)).Sublist (entriesOf tail) := by
      conv_rhs => rw [← List.take_append_drop k tail, entriesOf_append]
      exact List.sublist_append_left _ _
    refine List.pairwise_append.2 ⟨?_, ?_, fun a ha b hb => ?_⟩
    · refine (h.ahead.sublist hkept).imp_of_mem fun {a b} ha _ hab => ?_
      exact Layout.ahead_append.2 ⟨hab.sublist hsub,
        Layout.ahead_of_no_first fun e he => hnew e he a ha, fun _ _ e' he' _ => hnew e' he' a ha⟩
    · refine (ahead_entriesOf htail).imp_of_mem fun {a b} ha hb hab => ?_
      exact Layout.ahead_append.2 ⟨Layout.ahead_of_no_first fun e he => hstays e he a ha,
        hab.sublist htaken, fun e he _ _ hname => absurd hname (hstays e he b hb)⟩
    · exact Layout.ahead_append.2 ⟨Layout.ahead_of_no_second fun e he => hstays e he b hb,
        Layout.ahead_of_no_first fun e he => hnew e he a ha, fun _ _ e' he' _ => hnew e' he' a ha⟩

end Ranked

variable {record : Record} {rules : List Rule}

/-- Rebuilding a chain ranks the records as they are placed. -/
theorem ranked_respliced (h : ∀ d, Ranked (s.ledger.applied.get d) (U.get d)) {k : Nat}
    (hV : Respliced record.direction (rebuiltPart s.ledger record rules) k U V) (d : Direction) :
    Ranked ((s.ledger.applied.set record.direction
      (place (s.ledger.applied.get record.direction) record rules).entries).get d) (V.get d) := by
  obtain ⟨hself, hother⟩ := hV
  by_cases hd : d = record.direction
  · subst hd
    have hranked := h record.direction
    have horder := inOrder_place hranked.inOrder hranked.distinct record rules
    have hdistinct := distinct_place hranked.distinct record rules
    rw [← keptPart_append] at horder hdistinct
    rw [PerDirection.get_set_self, hself, ← keptPart_append]
    exact hranked.rebuild (List.take_sublist _ _) horder hdistinct k
  · rw [PerDirection.get_set_of_ne _ _ hd, hother d hd]
    exact (h d).sublist (.refl _) List.filter_sublist

theorem ranked_shrink (hU : s.Laid U) (h : ∀ d, Ranked (s.ledger.applied.get d) (U.get d)) {i : Nat}
    (hi : shrinkable? s.ledger record rules = some i)
    (hok : (s.shrink i record rules).1 = .ok ()) :
    ∃ V, (s.shrink i record rules).2.Laid V ∧
      ∀ d, Ranked ((s.shrink i record rules).2.ledger.applied.get d) (V.get d) := by
  obtain ⟨V, hV, hthin, hgone⟩ := hU.shrink i record rules
  refine ⟨_, hV, fun d => ?_⟩
  rw [(worked_shrink s i record rules).applied]
  by_cases hd : d = record.direction
  · subst hd
    obtain ⟨pre, known, post, hsplit, rfl, hname, hkey, -⟩ := shrinkable_cases hi
    have hranked := h record.direction
    rw [PerDirection.get_modify_self, PerDirection.get_set_self, hthin.eq_of_none (hgone hok),
      hsplit, set_split]
    rw [hsplit] at hranked
    exact hranked.shrink rules hname hkey
  · rw [PerDirection.get_modify_of_ne _ _ hd, PerDirection.get_set_of_ne _ _ hd]
    exact h d

theorem ranked_work (hU : s.Laid U) (h : ∀ d, Ranked (s.ledger.applied.get d) (U.get d))
    (o : Operation)
    (hfine : (s.work o).2.backend.failures Call.deletes = s.backend.failures Call.deletes) :
    ∃ V, (s.work o).2.Laid V ∧ ∀ d, Ranked ((s.work o).2.ledger.applied.get d) (V.get d) := by
  cases o with
  | cease name =>
    obtain ⟨V, hV, hsub, -⟩ := hU.work_cease name
    refine ⟨V, hV, fun d => (h d).sublist ?_ (hsub d)⟩
    rw [applied_work_cease, Ledger.retire, PerDirection.get_map]
    exact List.filter_sublist
  | ceaseParent dialect parent =>
    obtain ⟨V, hV, hsub, -⟩ := hU.work_ceaseParent dialect parent
    refine ⟨V, hV, fun d => (h d).sublist ?_ (hsub d)⟩
    rw [applied_work_ceaseParent, Ledger.retire, PerDirection.get_map]
    exact List.filter_sublist
  | apply record rules =>
    obtain ⟨V, hV, ⟨-, -, hlost⟩ | ⟨k, hspliced, -⟩⟩ := hU.work_apply record rules
    · exact absurd (hlost Call.deletes fun _ _ => rfl) (Nat.not_lt_of_le (Nat.le_of_eq hfine))
    · refine ⟨V, hV, fun d => ?_⟩
      rw [applied_work_apply]
      exact ranked_respliced h hspliced d

theorem ranked_step (hU : s.Laid U) (h : ∀ d, Ranked (s.ledger.applied.get d) (U.get d))
    (o : Operation)
    (hfine : (s.step o).2.backend.failures Call.deletes = s.backend.failures Call.deletes) :
    ∃ V, (s.step o).2.Laid V ∧ ∀ d, Ranked ((s.step o).2.ledger.applied.get d) (V.get d) := by
  have hchecked := hU.checkAlive
  obtain ⟨b, ⟨e, hdead, hstep⟩ |
    ⟨halive, ⟨record, rules, i, rfl, hquiet, hok, hstep⟩ | ⟨hworked, hstep⟩⟩⟩ :=
      step_cases_of_fine Call.deletes_delete s o hfine
  · rw [hdead] at hchecked
    rw [hstep]
    exact ⟨U, hchecked, h⟩
  · rw [halive] at hchecked
    rw [hstep]
    exact ranked_shrink hchecked h hquiet hok
  · rw [halive] at hchecked
    rw [hstep]
    obtain ⟨V, hV, hV'⟩ := ranked_work hchecked h o hworked
    refine ⟨V, hV.updateDefaults, fun d => ?_⟩
    rw [settle, (tuned_updateDefaults _).applied]
    exact hV' d

/-- Runs in which no deletion fails keep the entries in the order of their
records. -/
theorem ranked_run {ops : List Operation} (hU : s.Laid U)
    (h : ∀ d, Ranked (s.ledger.applied.get d) (U.get d))
    (hfine : (s.run ops).backend.failures Call.deletes = s.backend.failures Call.deletes) :
    ∃ V, (s.run ops).Laid V ∧ ∀ d, Ranked ((s.run ops).ledger.applied.get d) (V.get d) := by
  induction ops generalizing s U with
  | nil => exact ⟨U, hU, h⟩
  | cons o rest ih =>
    have hle := failures_le_step s o Call.deletes
    have hle' := failures_le_run (s.step o).2 rest Call.deletes
    have hrun : s.run (o :: rest) = (s.step o).2.run rest := rfl
    rw [hrun] at hfine ⊢
    obtain ⟨V, hV, hV'⟩ := ranked_step hU h o (by omega)
    exact ih hV hV' (by omega)

theorem Created.ranked (hs : s.Created) (d : Direction) :
    Ranked (s.ledger.applied.get d) (s.found.get d) := by
  obtain ⟨b, b', -, -, -, hledger⟩ := hs.cases
  have hnone : s.ledger.applied.get d = [] := by
    rw [hledger]
    cases d <;> rfl
  rw [hnone]
  exact ⟨.nil, .nil, by simp, .nil⟩

end Site

end PodFirewall
