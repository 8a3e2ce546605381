import PodFirewall.Proofs.Firewall.Canonical
import PodFirewall.Proofs.Firewall.Ranking
import PodFirewall.Proofs.Firewall.Repair
import PodFirewall.Proofs.Firewall.Stops

/-!
Exceptions and what they except from. A record whose rules drop packets is an
exception from the records behind it, whose rules forward them. A record that
keeps its place stands guard over all others while a chain is rebuilt. But the
records that are rebuilt are taken out from the first to the last, and each
removal is committed: so an exception is lifted while the rules that it excepts
from are still in the chain.
-/

namespace PodFirewall

namespace Layout

theorem Ahead.lt {L : Layout} {m n : String} (h : Ahead L m n) (hne : m ≠ n) {i j : Nat}
    {e e' : Option String × Rule} (he : L[i]? = some e) (he' : L[j]? = some e')
    (hm : e.1 = some m) (hn : e'.1 = some n) : i < j := by
  obtain ⟨hi, rfl⟩ := List.getElem?_eq_some_iff.1 he
  obtain ⟨hj, rfl⟩ := List.getElem?_eq_some_iff.1 he'
  rcases Nat.lt_trichotomy i j with hlt | rfl | hgt
  · exact hlt
  · rw [hm, Option.some.injEq] at hn
    exact absurd hn hne
  · exact absurd hm (List.pairwise_iff_getElem.1 h j i hj hi hgt hn)

theorem getElem?_rules (U : Layout) (j : Nat) :
    U.rules[j]? = U[j]?.map fun e => { e.2 with id := j } := by
  rw [rules, Rule.getElem?_numberFrom, List.getElem?_map, Option.map_map, Nat.zero_add]
  rfl

end Layout

namespace Site

open Layout (Ahead)

/-- Whether all drop rules that one record asks for are in the chain in front of
each forward rule that is recorded for another one. -/
def Guards (s : Site) (d : Direction) (x y : Applied) : Prop :=
  ∀ (j : Nat) (r : Rule), (s.chain d)[j]? = some r → r ∈ s.ledger.recorded y.record.name d →
    r.action = .forward → ∀ t ∈ x.rules, t.action = .drop → ∃ (i : Nat) (r' : Rule), i < j ∧
      (s.chain d)[i]? = some r' ∧ r' ∈ s.ledger.recorded x.record.name d ∧ r'.sameMatch t = true

def Has (L : Layout) (a : Applied) : Prop :=
  ∀ t ∈ a.rules, ∃ e ∈ L, e.1 = some a.record.name ∧ e.2.body = t.body

variable {s m : Site} {U V : PerDirection Layout} {d : Direction} {x y : Applied} {record : Record}
  {rules : List Rule}

theorem Laid.guards (hV : m.Laid V) (hne : x.record.name ≠ y.record.name)
    (hahead : Ahead (V.get d) x.record.name y.record.name)
    (hhas : (∃ e ∈ V.get d, e.1 = some y.record.name) → Has (V.get d) x) : m.Guards d x y := by
  intro j r hr hrecorded _ t ht _
  rw [chain_eq hV.holds, Layout.getElem?_rules, Option.map_eq_some_iff] at hr
  obtain ⟨e, he, rfl⟩ := hr
  rw [hV.records.mem_recorded he] at hrecorded
  obtain ⟨e', he', hname, hbody⟩ := hhas ⟨e, List.mem_of_getElem? he, hrecorded⟩ t ht
  obtain ⟨i, hi⟩ := List.getElem?_of_mem he'
  refine ⟨i, _, hahead.lt hne hi he hname hrecorded, ?_, (hV.records.mem_recorded hi _).2 hname, ?_⟩
  · rw [chain_eq hV.holds, Layout.getElem?_rules, hi]
    rfl
  · rw [Rule.sameMatch_iff, Rule.body_renumbered, hbody]

/-! ### What stands guard -/

theorem has_of_inSync {L : Layout} {a : Applied} (h : InSync L a) : Has L a := by
  intro t ht
  have hmem : (some a.record.name, t.body) ∈ Layout.tags (entriesOf [a]) := by
    simpa [Layout.tags, entriesOf] using ⟨t, ht, rfl⟩
  rw [← h, Layout.tags, List.mem_map] at hmem
  obtain ⟨e, he, heq⟩ := hmem
  rw [Prod.mk.injEq] at heq
  exact ⟨e, (List.mem_filter.1 he).1, heq⟩

theorem Has.of_thinned {L M : Layout} {q : Layout.Test} {a : Applied} (h : Has L a)
    (hthin : Layout.Thinned q L M)
    (hstay : ∀ e : Option String × Rule, e.1 = some a.record.name → Layout.passes q e = false) :
    Has M a := by
  intro t ht
  obtain ⟨e, he, hname, hbody⟩ := h t ht
  have hmem : e ∈ L.filter fun e => !Layout.passes q e :=
    List.mem_filter.2 ⟨he, by rw [hstay e hname]; rfl⟩
  rw [← hthin.rest] at hmem
  exact ⟨e, (List.mem_filter.1 hmem).1, hname, hbody⟩

/-- A record that keeps its place has all its rules in the chain. -/
theorem has_of_kept (hU : s.Laid U) (hx : x ∈ keptRecords s.ledger record rules)
    (hne : x.record.name ≠ record.name) : Has (U.get record.direction) x := by
  refine has_of_inSync ?_
  unfold keptRecords at hx
  split at hx
  · rename_i i hquiet
    obtain ⟨pre, known, post, -, -, -, -, -, hsync⟩ := shrinkable_cases hquiet
    have hmem := (List.mem_or_eq_of_mem_set hx).resolve_right fun heq => hne (by rw [heq])
    exact (inSync_iff hU.records _ x).1 (inSync_of_firstOutOfSync hsync x hmem)
  · exact keptPart_inSync hU record rules x hx

theorem not_mem_rebuilt {entries : List Applied} (h : Distinct entries) {kept tail : List Applied}
    (hentries : entries = kept ++ tail) (hx : x ∈ kept) :
    x.record.name ∉ tail.map (·.record.name) := by
  rw [hentries] at h
  intro hmem
  obtain ⟨a, ha, hname⟩ := List.mem_map.1 hmem
  exact (List.pairwise_append.1 h).2.2 x hx a ha hname.symm

/-- What is known of two records at each stop of an apply of a third one. -/
theorem stop_cases (hU : s.Laid U) (h : ∀ d, Ranked (s.ledger.applied.get d) (U.get d))
    (hxy : [x, y].Sublist (s.ledger.applied.get record.direction))
    (hx : x.record.name ≠ record.name) (hy : y.record.name ≠ record.name) :
    ∀ m ∈ s.applyStops record rules, ∃ V, m.Laid V ∧
      Ahead (V.get record.direction) x.record.name y.record.name ∧
      (∀ e ∈ V.get record.direction, e.1 = some y.record.name → ∃ r ∈ y.rules, r.body = e.2.body) ∧
      (x ∈ keptRecords s.ledger record rules → Has (V.get record.direction) x) := by
  intro m hm
  have hranked := h record.direction
  have hahead : Ahead (U.get record.direction) x.record.name y.record.name := by
    simpa using hranked.ahead.sublist hxy
  have hasked := hranked.asked y (hxy.subset (by simp))
  obtain ⟨V, hV, rfl | ⟨-, W, rfl, hthin⟩ | ⟨hquiet, hthin | ⟨k, hspliced⟩⟩⟩ :=
    hU.applyStops record rules m hm
  · exact ⟨V, hV, hahead, hasked, fun hkept => has_of_kept hU hkept hx⟩
  · refine ⟨_, hV, ?_⟩
    rw [PerDirection.get_set_self]
    refine ⟨hahead.sublist hthin.sublist, fun e he => hasked e (hthin.sublist.subset he),
      fun hkept => (has_of_kept hU hkept hx).of_thinned hthin fun e hname => ?_⟩
    simp [Layout.passes, stale, hname, hx]
  · refine ⟨V, hV, hahead.sublist (hthin _).sublist,
      fun e he => hasked e ((hthin _).sublist.subset he),
      fun hkept => (has_of_kept hU hkept hx).of_thinned (hthin _) fun e hname => ?_⟩
    rw [keptRecords, hquiet] at hkept
    have hnot := not_mem_rebuilt (distinct_place hranked.distinct record rules)
      (keptPart_append s.ledger record rules).symm hkept
    simpa [hname] using hnot
  · have hranked' := ranked_respliced h hspliced record.direction
    rw [PerDirection.get_set_self] at hranked'
    have hplaced : [x, y].Sublist (place (s.ledger.applied.get record.direction) record
        rules).entries := sublist_place hranked.distinct rules hxy (by simp [hx, hy])
    refine ⟨V, hV, by simpa using hranked'.ahead.sublist hplaced,
      hranked'.asked y (hplaced.subset (by simp)), fun hkept t ht => ?_⟩
    obtain ⟨e, he, hname, hbody⟩ := has_of_kept hU hkept hx t ht
    rw [keptRecords, hquiet] at hkept
    have hnot := not_mem_rebuilt (distinct_place hranked.distinct record rules)
      (keptPart_append s.ledger record rules).symm hkept
    refine ⟨e, ?_, hname, hbody⟩
    rw [hspliced.1]
    refine List.mem_append_left _ (List.mem_filter.2 ⟨he, ?_⟩)
    simpa [hname] using hnot

/-- Two records are in the right order at each stop, if the first one keeps its
place, is no exception, or the second one forwards nothing. -/
theorem guards_at_stops (hU : s.Laid U) (h : ∀ d, Ranked (s.ledger.applied.get d) (U.get d))
    (hxy : [x, y].Sublist (s.ledger.applied.get record.direction))
    (hx : x.record.name ≠ record.name) (hy : y.record.name ≠ record.name)
    (hsafe : x ∈ keptRecords s.ledger record rules ∨ (∀ t ∈ x.rules, t.action ≠ .drop) ∨
      ∀ r ∈ y.rules, r.action ≠ .forward) :
    ∀ m ∈ s.applyStops record rules, m.Guards record.direction x y := by
  intro m hm
  obtain ⟨V, hV, hahead, hasked, hhas⟩ := stop_cases hU h hxy hx hy m hm
  have hne : x.record.name ≠ y.record.name := by
    simpa [Distinct] using (h record.direction).distinct.sublist hxy
  rcases hsafe with hkept | hdrop | hforward
  · exact hV.guards hne hahead fun _ => hhas hkept
  · intro _ _ _ _ _ t ht haction
    exact absurd haction (hdrop t ht)
  · intro j r hr hrecorded haction
    rw [chain_eq hV.holds, Layout.getElem?_rules, Option.map_eq_some_iff] at hr
    obtain ⟨e, he, rfl⟩ := hr
    rw [hV.records.mem_recorded he] at hrecorded
    obtain ⟨r', hr', hbody⟩ := hasked e (List.mem_of_getElem? he) hrecorded
    exact absurd ((congrArg Rule.action hbody).trans haction) (hforward r' hr')

/-! ### What an apply leaves if no deletion fails -/

theorem sublist_tail {α : Type} {kept tail : List α} {a b : α}
    (h : [a, b].Sublist (kept ++ tail)) (ha : a ∉ kept) : [a, b].Sublist tail := by
  obtain ⟨l, l', hl, hkept, htail⟩ := List.sublist_append_iff.1 h
  cases l with
  | nil =>
    rw [hl]
    exact htail
  | cons a' l =>
    obtain ⟨rfl, -⟩ := List.cons.inj hl
    exact absurd (hkept.subset List.mem_cons_self) ha

/-- Of two records in order the first one is among the first so many, if the
second one is. -/
theorem mem_take_of_sublist {entries : List Applied} (h : Distinct entries)
    (hxy : [x, y].Sublist entries) {k : Nat} (hy : y ∈ entries.take k) : x ∈ entries.take k := by
  by_contra hx
  rw [← List.take_append_drop k entries] at h hxy
  have hmem := (sublist_tail hxy hx).subset (show y ∈ [x, y] by simp)
  exact (List.pairwise_append.1 h).2.2 y hy y hmem rfl

/-- Shrinking a record keeps all others. -/
theorem mem_kept_of_quiet {i : Nat} (hquiet : shrinkable? s.ledger record rules = some i)
    (hmem : x ∈ s.ledger.applied.get record.direction) (hx : x.record.name ≠ record.name) :
    x ∈ keptRecords s.ledger record rules := by
  obtain ⟨pre, known, post, hsplit, rfl, hname, -⟩ := shrinkable_cases hquiet
  rw [hsplit, List.mem_append, List.mem_cons] at hmem
  rw [keptRecords, hquiet, hsplit]
  dsimp only
  rw [set_split, List.mem_append, List.mem_cons]
  exact hmem.imp id fun h => .inr (h.resolve_left fun heq => hx (by rw [heq, hname]))

theorem rebuilt_of_not_kept (h : Distinct (s.ledger.applied.get record.direction))
    (hquiet : shrinkable? s.ledger record rules = none)
    (hxy : [x, y].Sublist (s.ledger.applied.get record.direction))
    (hx : x.record.name ≠ record.name) (hy : y.record.name ≠ record.name)
    (hnot : x ∉ keptRecords s.ledger record rules) :
    [x, y].Sublist (rebuiltPart s.ledger record rules) := by
  have hplaced := sublist_place h rules hxy (by simp [hx, hy] : ∀ a ∈ [x, y], _ ≠ record.name)
  rw [← keptPart_append] at hplaced
  rw [keptRecords, hquiet] at hnot
  exact sublist_tail hplaced hnot

/-- An apply that fails no deletion leaves the right order, wherever it stops
appending. -/
theorem guards_of_fine (hU : s.Laid U) (h : ∀ d, Ranked (s.ledger.applied.get d) (U.get d))
    (hxy : [x, y].Sublist (s.ledger.applied.get record.direction))
    (hx : x.record.name ≠ record.name) (hy : y.record.name ≠ record.name)
    (halive : s.checkAlive.1 = .ok ())
    (hfine : (s.apply record rules).2.backend.failures Call.deletes =
      s.backend.failures Call.deletes) :
    (s.apply record rules).2.Guards record.direction x y := by
  by_cases hkept : x ∈ keptRecords s.ledger record rules
  · exact guards_at_stops hU h hxy hx hy (.inl hkept) _ (apply_mem_stops s record rules)
  have hdistinct := (h record.direction).distinct
  have hchecked := hU.checkAlive
  obtain ⟨b, hb, ⟨e, hdead, -⟩ | ⟨hfound, ⟨i, hquiet, -⟩ | ⟨hquiet, worked, rfl, happly, -⟩⟩⟩ :=
    apply_cases s record rules
  · rw [hdead] at halive
    cases halive
  · exact absurd (mem_kept_of_quiet hquiet (hxy.subset (by simp)) hx) hkept
  · rw [hfound] at hchecked
    rw [happly] at hfine ⊢
    have hworked := failures_work_of_fine hb hfine
    obtain ⟨V, hV, ⟨-, -, hlost⟩ | ⟨k, hspliced, -⟩⟩ := hchecked.work_apply record rules
    · exact absurd (hlost Call.deletes fun _ _ => rfl) (Nat.not_lt_of_le (Nat.le_of_eq hworked))
    have htail := rebuilt_of_not_kept hdistinct hquiet hxy hx hy hkept
    have hranked := ranked_respliced h hspliced record.direction
    rw [PerDirection.get_set_self, ← keptPart_append] at hranked
    have hrebuilt : Distinct (rebuiltPart s.ledger record rules) :=
      (List.pairwise_append.1 hranked.distinct).2.1
    refine hV.updateDefaults.guards (by simpa [Distinct] using hdistinct.sublist hxy)
      (by simpa using hranked.ahead.sublist (htail.trans (List.sublist_append_right _ _))) ?_
    -- the second record has entries only if all those of the first one were appended
    rintro ⟨e, he, hname⟩ t ht
    rw [hspliced.1] at he ⊢
    have hynames : y.record.name ∈ (rebuiltPart s.ledger record rules).map (·.record.name) :=
      List.mem_map_of_mem (htail.subset (by simp))
    rcases List.mem_append.1 he with he | he
    · have hout := (List.mem_filter.1 he).2
      rw [Layout.passes_ofNames, hname, Option.any_some,
        List.contains_iff_mem.2 hynames] at hout
      cases hout
    · obtain ⟨a, ha, r, -, rfl⟩ := mem_entriesOf.1 he
      have hay : a = y := Distinct.eq hrebuilt (List.mem_of_mem_take ha) (htail.subset (by simp))
        (Option.some.inj hname)
      subst hay
      exact ⟨(some x.record.name, t), List.mem_append_right _ (mem_entriesOf.2
        ⟨x, mem_take_of_sublist hrebuilt htail ha, t, ht, rfl⟩), rfl, rfl⟩

/-! ### Where an exception is lifted -/

theorem any_deleteEach (d : Direction) (rules : List Rule) {out : Deletion} (s : Site)
    (h : out.any = true) : (deleteEach d rules out s).1.any = true := by
  induction rules generalizing out s with
  | nil => exact h
  | cons r rest ih =>
    unfold deleteEach
    split
    · exact ih _ h
    · exact ih _ rfl

/-- If no rule is deleted, all deletions failed. -/
theorem failed_deleteEach (d : Direction) (rules : List Rule) (out : Deletion) (s : Site) :
    (deleteEach d rules out s).1.any = true ∨
      (deleteEach d rules out s).1.failed.length = out.failed.length + rules.length := by
  induction rules generalizing out s with
  | nil => exact .inr rfl
  | cons r rest ih =>
    unfold deleteEach
    split
    · rename_i b hdelete
      refine (ih { out with failed := r :: out.failed } _).imp id fun h => ?_
      rw [h, List.length_cons, List.length_cons]
      omega
    · exact .inl (any_deleteEach d rest _ rfl)

def AtCommit (s m : Site) (c : Chain) : Prop :=
  ∃ e earlier, m.backend.log = e :: earlier ∧ e.call = .commit c ∧
    s.backend.log.length ≤ earlier.length

theorem AtCommit.of_later {s₀ : Site} {c : Chain} (h : AtCommit s m c) (hlater : Later s₀ s) :
    AtCommit s₀ m c := by
  obtain ⟨-, new, hnew⟩ := hlater
  obtain ⟨e, earlier, hlog, hcall, hlong⟩ := h
  rw [hnew, List.length_append] at hlong
  exact ⟨e, earlier, hlog, hcall, by omega⟩

/-- Removing rules without a failure ends with a commit. -/
theorem atCommit_remove (s : Site) (d : Direction) {rules : List Rule} (hne : rules ≠ [])
    (hfine : (s.remove d rules).2.backend.failures Call.deletes =
      s.backend.failures Call.deletes) : AtCommit s (s.remove d rules).2 d.chain := by
  have hcount := failures_deleteEach Call.deletes_delete d (Rule.sortDown rules) ⟨[], false⟩ s
  have hdone := failed_deleteEach d (Rule.sortDown rules) ⟨[], false⟩ s
  have hlog := (Worked.deleteEach d (Rule.sortDown rules) ⟨[], false⟩ s).log
  have hpos := List.length_pos_iff.2 hne
  unfold remove at hfine ⊢
  rw [if_neg (mt List.isEmpty_iff.1 hne)] at hfine ⊢
  rcases hdeleted : deleteEach d (Rule.sortDown rules) ⟨[], false⟩ s with ⟨out, s'⟩
  rw [hdeleted] at hcount hdone hlog hfine
  rw [(Rule.sortDown_perm rules).length_eq, List.length_nil] at hdone
  rw [List.length_nil] at hcount
  dsimp only at hcount hdone hlog hfine ⊢
  split
  · obtain ⟨new, hnew, -⟩ := hlog
    exact ⟨_, _, Backend.log_perform rfl, rfl, by rw [hnew, List.length_append]; omega⟩
  · rename_i hany
    have hfailed := hdone.resolve_left hany
    rw [if_neg hany] at hfine
    dsimp only at hfine
    omega

/-- Removing the rules of a name without a failure leaves none of them. -/
theorem Laid.remove_fine (hU : s.Laid U) (d : Direction) (name : String)
    (hfine : (s.remove d (s.ledger.recorded name d)).2.backend.failures Call.deletes =
      s.backend.failures Call.deletes) :
    (s.remove d (s.ledger.recorded name d)).2.Laid
      (U.set d ((U.get d).filter fun e => !Layout.passes (Layout.ofName name) e)) := by
  have hcount := failures_remove Call.deletes_delete s d (s.ledger.recorded name d)
  rw [hU.records.recorded] at hcount hfine ⊢
  obtain ⟨V, hV, hthin, hleft⟩ := hU.remove d (Layout.ofName name)
  have hnone : V.filter (Layout.passes (Layout.ofName name)) = [] :=
    List.length_eq_zero_iff.1 (by omega)
  rw [← hthin.eq_of_none hnone]
  exact hV

/-- While the rules of a name are removed without a failure, there is a commit at
which those of a direction are gone and those of other names are still there. -/
theorem Laid.atCommit_ceaseRules (hU : s.Laid U) {name : String} {d : Direction}
    (hne : s.ledger.recorded name d ≠ [])
    (hfine : (s.ceaseRules name).2.backend.failures Call.deletes =
      s.backend.failures Call.deletes) :
    ∃ m ∈ s.ceaseStops name, AtCommit s m d.chain ∧ ∃ V, m.Laid V ∧
      V.get d = (U.get d).filter fun e => !Layout.passes (Layout.ofName name) e := by
  cases hknown : s.ledger.rules.get? name with
  | none => exact absurd (Ledger.recorded_eq_nil hknown d) hne
  | some known =>
    have hin : known.incoming = s.ledger.recorded name .incoming :=
      (Ledger.recorded_eq hknown .incoming).symm
    have hout : known.outgoing = s.ledger.recorded name .outgoing :=
      (Ledger.recorded_eq hknown .outgoing).symm
    have hceased := ceaseRules_snd hknown
    have hstops : s.ceaseStops name = [(s.remove .incoming known.incoming).2,
        ((s.remove .incoming known.incoming).2.remove .outgoing known.outgoing).2] := by
      rw [← hceased]
      simp only [Site.ceaseStops, hknown]
    have hle := (Worked.remove s .incoming known.incoming).failures_le Call.deletes
    have hle' := (Worked.remove (s.remove .incoming known.incoming).2 .outgoing
      known.outgoing).failures_le Call.deletes
    rw [hceased] at hfine
    have hfine₁ : (s.remove .incoming known.incoming).2.backend.failures Call.deletes =
        s.backend.failures Call.deletes := by omega
    have hfine₂ : ((s.remove .incoming known.incoming).2.remove .outgoing
        known.outgoing).2.backend.failures Call.deletes =
          (s.remove .incoming known.incoming).2.backend.failures Call.deletes := by omega
    have hV : (s.remove .incoming known.incoming).2.Laid (U.set .incoming
        ((U.get .incoming).filter fun e => !Layout.passes (Layout.ofName name) e)) := by
      rw [hin] at hfine₁ ⊢
      exact hU.remove_fine .incoming name hfine₁
    rw [hstops]
    cases d with
    | incoming =>
      rw [← hin] at hne
      exact ⟨_, List.mem_cons_self, atCommit_remove s .incoming hne hfine₁, _, hV, rfl⟩
    | outgoing =>
      -- the first removal is about the other chain, so the second one finds what was recorded
      have hrecorded : known.outgoing =
          (s.remove .incoming known.incoming).2.ledger.recorded name .outgoing := by
        rw [hV.records.recorded, hout, hU.records.recorded]
        rfl
      rw [← hout] at hne
      have hcommit := (atCommit_remove _ .outgoing hne hfine₂).of_later
        ((stable_later s).remove .incoming known.incoming (.refl s))
      rw [hrecorded] at hfine₂ hcommit ⊢
      exact ⟨_, List.mem_cons_of_mem _ List.mem_cons_self, hcommit, _,
        hV.remove_fine .outgoing name hfine₂, rfl⟩

theorem ceaseEach_append (names names' : List String) (out : Outcome) (s : Site) :
    ceaseEach (names ++ names') out s =
      ceaseEach names' (ceaseEach names out s).1 (ceaseEach names out s).2 := by
  induction names generalizing out s with
  | nil => rfl
  | cons name rest ih => exact ih _ _

theorem ceaseEachStops_append (names names' : List String) (out : Outcome) (s : Site) :
    ceaseEachStops (names ++ names') s =
      ceaseEachStops names s ++ ceaseEachStops names' (ceaseEach names out s).2 := by
  induction names generalizing out s with
  | nil => rfl
  | cons name rest ih =>
    rw [List.cons_append, ceaseEachStops, ceaseEachStops, List.append_assoc]
    exact congrArg (s.ceaseStops name ++ ·) (ih _ _)

theorem split_of_sublist {α : Type} {a b : α} {l : List α} (h : [a, b].Sublist l) :
    ∃ pre post, l = pre ++ a :: post ∧ b ∈ post := by
  obtain ⟨l₁, l₂, rfl, ha, hb⟩ := List.cons_sublist_iff.1 h
  obtain ⟨pre, post, rfl⟩ := List.append_of_mem ha
  exact ⟨pre, post ++ l₂, by simp, List.mem_append_right _ (List.singleton_sublist.1 hb)⟩

/-- What fails while one name of a tail is ceased is counted by the whole. -/
theorem failures_le_resplice_at (s : Site) {d : Direction} {start : Nat} {pre post : List String}
    {name : String}
    (hsplit : ((s.ledger.applied.get d).drop start).map (·.record.name) = pre ++ name :: post)
    (kind : Call → Bool) :
    s.backend.failures kind ≤ (ceaseEach pre (.ok ()) s).2.backend.failures kind ∧
      ((ceaseEach pre (.ok ()) s).2.ceaseRules name).2.backend.failures kind ≤
        (s.resplice d start).2.backend.failures kind := by
  refine ⟨(Worked.ceaseEach pre _ s).failures_le kind, ?_⟩
  have hrest := (Worked.ceaseEach post
    ((ceaseEach pre (.ok ()) s).1.later ((ceaseEach pre (.ok ()) s).2.ceaseRules name).1)
    ((ceaseEach pre (.ok ()) s).2.ceaseRules name).2).failures_le kind
  have hcease : ceaseEach (((s.ledger.applied.get d).drop start).map (·.record.name)) (.ok ()) s =
      ceaseEach post
        ((ceaseEach pre (.ok ()) s).1.later ((ceaseEach pre (.ok ()) s).2.ceaseRules name).1)
        ((ceaseEach pre (.ok ()) s).2.ceaseRules name).2 := by
    rw [hsplit, ceaseEach_append]
    rfl
  rw [← hcease] at hrest
  refine Nat.le_trans hrest ?_
  rcases hceased : ceaseEach (((s.ledger.applied.get d).drop start).map (·.record.name)) (.ok ()) s
    with ⟨e | ⟨⟨⟩⟩, s'⟩ <;> simp only [resplice, hceased]
  · exact Nat.le_refl _
  · exact (Worked.injectEach d _ s').failures_le kind

/-- A record that is rebuilt is taken out by a commit before anything is done
about the records behind it. -/
theorem lifted_at_stop (hU : s.Laid U) {start : Nat} {pre post : List Applied}
    (hsplit : (s.ledger.applied.get d).drop start = pre ++ x :: post)
    (hdistinct : Distinct (pre ++ x :: post))
    (hfine : (s.resplice d start).2.backend.failures Call.deletes =
      s.backend.failures Call.deletes)
    (hin : ∃ e ∈ U.get d, e.1 = some x.record.name) :
    ∃ m ∈ s.respliceStops d start, AtCommit s m d.chain ∧ ∃ V, m.Laid V ∧
      (∀ e ∈ V.get d, e.1 ≠ some x.record.name) ∧
      ∀ a ∈ post, ∀ e ∈ U.get d, e.1 = some a.record.name → e ∈ V.get d := by
  obtain ⟨-, hpost, hpre⟩ := List.pairwise_append.1 hdistinct
  have hnames : ((s.ledger.applied.get d).drop start).map (·.record.name) =
      pre.map (·.record.name) ++ x.record.name :: post.map (·.record.name) := by
    rw [hsplit, List.map_append, List.map_cons]
  obtain ⟨hle, hle'⟩ := failures_le_resplice_at s hnames Call.deletes
  have hmono := failures_le_ceaseRules (ceaseEach (pre.map (·.record.name)) (.ok ()) s).2
    x.record.name Call.deletes
  -- when the records before it are out, its own entries and those behind it are still in
  obtain ⟨V, hV, hthin, -⟩ := hU.ceaseEach (pre.map (·.record.name)) (.ok ())
  have hstay {a : Applied} (ha : a ∈ x :: post) {e : Option String × Rule}
      (he : e ∈ U.get d) (hname : e.1 = some a.record.name) : e ∈ V.get d := by
    have hmem : e ∈ (U.get d).filter fun e =>
        !Layout.passes (Layout.ofNames (pre.map (·.record.name))) e := by
      refine List.mem_filter.2 ⟨he, ?_⟩
      simpa [hname] using fun c hc => hpre c hc a ha
    rw [← (hthin d).rest] at hmem
    exact (List.mem_filter.1 hmem).1
  have hrecorded : (ceaseEach (pre.map (·.record.name)) (.ok ()) s).2.ledger.recorded
      x.record.name d ≠ [] := by
    obtain ⟨e, he, hname⟩ := hin
    rw [hV.records.recorded, ne_eq, Layout.chosen_eq_nil_iff]
    intro hnil
    exact List.filter_eq_nil_iff.1 hnil e (hstay List.mem_cons_self he hname) (by simp [hname])
  obtain ⟨m, hm, hcommit, W, hW, hgone⟩ := hV.atCommit_ceaseRules hrecorded (by omega)
  refine ⟨m, ?_, hcommit.of_later ((stable_later s).ceaseEach (.refl s) _ _), W, hW,
    fun e he hname => ?_, fun a ha e he hname => ?_⟩
  · refine List.mem_append_left _ ?_
    rw [hnames, ceaseEachStops_append _ _ (.ok ())]
    exact List.mem_append_right _ (List.mem_append_left _ hm)
  · rw [hgone] at he
    simpa [hname] using (List.mem_filter.1 he).2
  · rw [hgone]
    refine List.mem_filter.2 ⟨hstay (List.mem_cons_of_mem _ ha) he hname, ?_⟩
    simpa [hname] using Ne.symm ((List.pairwise_cons.1 hpost).1 a ha)

theorem exists_entry_of_recorded (hU : s.Laid U) {name : String} {p : Rule → Prop}
    (hp : ∀ (r : Rule) (n : Nat), p { r with id := n } ↔ p r)
    (h : ∃ r ∈ s.ledger.recorded name d, p r) : ∃ e ∈ U.get d, e.1 = some name ∧ p e.2 := by
  obtain ⟨r, hr, hpr⟩ := h
  rw [hU.records.recorded, Layout.mem_chosen] at hr
  obtain ⟨e, he, hname, hid⟩ := hr
  rw [hid] at hpr
  exact ⟨e, List.mem_of_getElem? he, by simpa using hname, (hp _ _).1 hpr⟩

/-- A layout that has entries of the second name, but none of the first, is not
guarded. -/
theorem Laid.not_guards (hV : m.Laid V)
    (hforward : ∃ e ∈ V.get d, e.1 = some y.record.name ∧ e.2.action = .forward)
    (hdrop : ∃ t ∈ x.rules, t.action = .drop) (hnone : ∀ e ∈ V.get d, e.1 ≠ some x.record.name) :
    ¬m.Guards d x y := by
  intro hguards
  obtain ⟨e, he, hname, haction⟩ := hforward
  obtain ⟨t, ht, hdrop⟩ := hdrop
  obtain ⟨j, hj⟩ := List.getElem?_of_mem he
  have hchain (i : Nat) : (m.chain d)[i]? = (V.get d)[i]?.map fun e => { e.2 with id := i } := by
    rw [chain_eq hV.holds, Layout.getElem?_rules]
  obtain ⟨i, r, -, hr, hrecorded, -⟩ := hguards j { e.2 with id := j } (by rw [hchain, hj]; rfl)
    ((hV.records.mem_recorded hj _).2 hname) haction t ht hdrop
  rw [hchain, Option.map_eq_some_iff] at hr
  obtain ⟨e', he', rfl⟩ := hr
  exact hnone e' (List.mem_of_getElem? he') ((hV.records.mem_recorded he' _).1 hrecorded)

/-- An exception that is rebuilt is lifted by a commit while the rules that it
excepts from are in the chain, unless it has no rules there or a deletion
fails. -/
theorem lifted_of_rebuilt (hU : s.Laid U) (h : ∀ d, Ranked (s.ledger.applied.get d) (U.get d))
    (hxy : [x, y].Sublist (s.ledger.applied.get record.direction))
    (hx : x.record.name ≠ record.name) (hy : y.record.name ≠ record.name)
    (halive : s.checkAlive.1 = .ok ())
    (hfine : (s.apply record rules).2.backend.failures Call.deletes =
      s.backend.failures Call.deletes)
    (hnot : x ∉ keptRecords s.ledger record rules)
    (hdrop : ∃ t ∈ s.ledger.recorded x.record.name record.direction, t.action = .drop)
    (hforward : ∃ r ∈ s.ledger.recorded y.record.name record.direction, r.action = .forward) :
    ∃ m ∈ s.applyStops record rules, AtCommit s m record.direction.chain ∧
      ¬m.Guards record.direction x y := by
  have hranked := h record.direction
  have hdrop := exists_entry_of_recorded hU (fun _ _ => Iff.rfl) hdrop
  have hforward := exists_entry_of_recorded hU (fun _ _ => Iff.rfl) hforward
  obtain ⟨b, hb, ⟨e, hdead, -⟩ |
    ⟨hfound, ⟨i, hquiet, -⟩ | ⟨hquiet, worked, rfl, happly, hstops⟩⟩⟩ := apply_cases s record rules
  · rw [hdead] at halive
    cases halive
  · exact absurd (mem_kept_of_quiet hquiet (hxy.subset (by simp)) hx) hnot
  have hchecked := hU.checkAlive
  rw [hfound] at hchecked
  have hplaced : Laid (placed { s with backend := b } record rules) U := hchecked.of_rules rfl
  have htail := drop_placed { s with backend := b } record rules
  obtain ⟨pre, post, hsplit, hpost⟩ :=
    split_of_sublist (rebuilt_of_not_kept hranked.distinct hquiet hxy hx hy hnot)
  have hdistinct : Distinct (pre ++ x :: post) := by
    have hdistinct := distinct_place hranked.distinct record rules
    rw [← keptPart_append, hsplit] at hdistinct
    exact (List.pairwise_append.1 hdistinct).2.1
  rw [happly] at hfine
  have hspliced := failures_work_of_fine hb hfine
  rw [work_apply] at hspliced
  -- the commit at which the exception is out and the records behind it are still in
  obtain ⟨m, hm, hcommit, V, hV, hnone, hstay⟩ := lifted_at_stop hplaced (htail.trans hsplit)
    hdistinct hspliced (hdrop.imp fun e he => ⟨he.1, he.2.1⟩)
  have hlater : Later s { s with backend := b } := (Later.refl s).worked hb
  refine ⟨m, by rw [hstops]; exact List.mem_append_left _ hm, hcommit.of_later hlater,
    hV.not_guards ?_ ?_ hnone⟩
  · obtain ⟨e, he, hname, haction⟩ := hforward
    exact ⟨e, hstay y hpost e he hname, hname, haction⟩
  · obtain ⟨e, he, hname, haction⟩ := hdrop
    obtain ⟨t, ht, hbody⟩ := hranked.asked x (hxy.subset (by simp)) e he hname
    exact ⟨t, ht, (congrArg Rule.action hbody).trans haction⟩

/-! ### Runs -/

theorem sublist_of_before {entries : List Applied} (h : InOrder entries) (hx : x ∈ entries)
    (hy : y ∈ entries) (hkey : ¬y.record.orderKey.le x.record.orderKey = true) :
    [x, y].Sublist entries := by
  obtain ⟨pre, post, rfl⟩ := List.append_of_mem hx
  obtain ⟨-, hpost, hpre⟩ := List.pairwise_append.1 h
  rcases List.mem_append.1 hy with hy | hy
  · exact absurd (hpre y hy x List.mem_cons_self) hkey
  · rcases List.mem_cons.1 hy with rfl | hy
    · exact absurd (OrderKey.le_of_not_le hkey) hkey
    · exact ((List.singleton_sublist.2 hy).cons_cons x).trans (List.sublist_append_right _ _)

/-- After a run in which no deletion failed, let a record be applied, and let two
others be applied all along, one before the other in the order of evaluation. At
every commit of the apply and in the state it leaves, whatever fails, the drop
rules of the first one stand in front of each forward rule of the second one, if
the first one keeps its place, drops nothing, or the second one forwards nothing.
In the state it leaves they also do if no deletion fails. But if the first one is
rebuilt, and both have such rules in the chain, there is a commit at which they do
not. -/
theorem exceptions_guarded {s₀ : Site} (hs : s₀.Created) {ops : List Operation}
    (hops : (s₀.run ops).backend.failures Call.deletes = s₀.backend.failures Call.deletes)
    (record : Record) (rules : List Rule) {x y : Applied}
    (hx : x ∈ (s₀.run ops).ledger.applied.get record.direction)
    (hy : y ∈ (s₀.run ops).ledger.applied.get record.direction)
    (hxne : x.record.name ≠ record.name) (hyne : y.record.name ≠ record.name)
    (hkey : ¬y.record.orderKey.le x.record.orderKey = true) :
    let s := s₀.run ops
    let s' := (s.apply record rules).2
    let d := record.direction
    s' ∈ s.applyStops record rules ∧ Covered (s.applyStops record rules) s s' ∧
      (x ∈ keptRecords s.ledger record rules ∨ (∀ t ∈ x.rules, t.action ≠ .drop) ∨
          (∀ r ∈ y.rules, r.action ≠ .forward) →
        ∀ m ∈ s.applyStops record rules, m.Guards d x y) ∧
      (s.checkAlive.1 = .ok () →
        s'.backend.failures Call.deletes = s.backend.failures Call.deletes →
          s'.Guards d x y ∧
            (x ∉ keptRecords s.ledger record rules →
              (∃ t ∈ s.ledger.recorded x.record.name d, t.action = .drop) →
              (∃ r ∈ s.ledger.recorded y.record.name d, r.action = .forward) →
                ∃ m ∈ s.applyStops record rules, AtCommit s m d.chain ∧ ¬m.Guards d x y)) := by
  obtain ⟨hlaid, -⟩ := hs.laid
  obtain ⟨U, hU, hranked⟩ := ranked_run hlaid hs.ranked hops
  have hxy := sublist_of_before (hranked record.direction).inOrder hx hy hkey
  refine ⟨apply_mem_stops _ _ _, covered_apply _ _ _,
    guards_at_stops hU hranked hxy hxne hyne, fun halive hfine => ⟨?_, ?_⟩⟩
  · exact guards_of_fine hU hranked hxy hxne hyne halive hfine
  · exact lifted_of_rebuilt hU hranked hxy hxne hyne halive hfine

/-- A record is put between an exception and the record that it excepts from, and
the rules of neither can be appended. -/
theorem exceptions_guarded_of_kept :
    let s₀ := newborn { Backend.empty with
      faults := fun n _ call => if 18 ≤ n ∧ call.editsRules = true ∧ call.deletes = false
        then some (.lost "") else none }
    let forward : Rule := { Rule.blank with action := .forward }
    let x : Applied := ⟨.plain "a" 3 .incoming, [Rule.blank]⟩
    let y : Applied := ⟨.plain "b" 7 .incoming, [forward]⟩
    let s := s₀.run [.apply x.record x.rules, .apply y.record y.rules]
    let s' := (s.apply (.plain "c" 5 .incoming) [forward]).2
    s₀.Created ∧ s.chain .incoming = [Rule.blank, { forward with id := 1 }] ∧
      s'.chain .incoming = [Rule.blank] ∧
      ∀ m ∈ s.applyStops (.plain "c" 5 .incoming) [forward], m.Guards .incoming x y := by
  intro s₀ forward x y s s'
  have hs : s₀.Created := newborn_created (.start fun n _ call =>
    if 18 ≤ n ∧ call.editsRules = true ∧ call.deletes = false then some (.lost "") else none) rfl
  have hops : s.backend.failures Call.deletes = s₀.backend.failures Call.deletes := by decide
  have hx : x ∈ s.ledger.applied.get .incoming := by decide
  have hy : y ∈ s.ledger.applied.get .incoming := by decide
  have hguarded := exceptions_guarded hs hops (.plain "c" 5 .incoming) [forward] hx hy
    (by decide) (by decide) (by decide)
  exact ⟨hs, by decide, by decide, hguarded.2.2.1 (.inl (by decide))⟩

/-- A record is put in front of an exception. The exception is taken out, then a
deletion fails, so nothing is appended again: a forward rule is left in the chain
and the exception from it is gone. -/
theorem exception_lost :
    let s₀ := newborn { Backend.empty with
      faults := fun _ _ call => if call = .delete .egress 1 then some (.lost "") else none }
    let forward : Rule := { Rule.blank with action := .forward }
    let x : Applied := ⟨.plain "a" 5 .incoming, [Rule.blank]⟩
    let y : Applied := ⟨.plain "b" 7 .incoming, [forward, { forward with sport := some 80 }]⟩
    let s := s₀.run [.apply x.record x.rules, .apply y.record y.rules]
    let s' := (s.apply (.plain "c" 3 .incoming) [forward]).2
    s₀.Created ∧ s.backend.failures Call.any = s₀.backend.failures Call.any ∧
      s'.chain .incoming = [{ forward with sport := some 80 }] ∧
      s'.ledger.recorded y.record.name .incoming = [{ forward with sport := some 80 }] ∧
      s'.ledger.recorded x.record.name .incoming = [] ∧ ¬s'.Guards .incoming x y := by
  intro s₀ forward x y s s'
  have hs : s₀.Created := newborn_created
    (.start fun _ _ call => if call = .delete .egress 1 then some (.lost "") else none) rfl
  have hchain : s'.chain .incoming = [{ forward with sport := some 80 }] := by decide
  have hleft : s'.ledger.recorded y.record.name .incoming =
      [{ forward with sport := some 80 }] := by decide
  have hgone : s'.ledger.recorded x.record.name .incoming = [] := by decide
  refine ⟨hs, by decide, hchain, hleft, hgone, fun hguards => ?_⟩
  obtain ⟨i, r, -, -, hrecorded, -⟩ := hguards 0 { forward with sport := some 80 }
    (by rw [hchain]; rfl) (by rw [hleft]; exact List.mem_singleton_self _) rfl Rule.blank
    (List.mem_singleton_self _) rfl
  rw [hgone] at hrecorded
  cases hrecorded

end Site

end PodFirewall
