import PodFirewall.Proofs.Firewall.Apart
import PodFirewall.Proofs.Firewall.Entries
import PodFirewall.Proofs.Firewall.Footprint

/-!
How little an apply disturbs. In a run in which no call fails a chain holds the
rules of its applied records and nothing else that was ever appended. So an apply
that only takes rules of a record deletes just these. Any other one builds the
chain anew from the place where the record was or comes to be, whichever is first,
and what stands in front of this place is neither deleted nor numbered anew. The
chain of the other direction is left alone.
-/

namespace PodFirewall

namespace Ledger

/-- The place of a name among the applied records, or behind them. -/
def position (l : Ledger) (d : Direction) (name : String) : Nat :=
  (l.applied.get d).findIdx fun a => a.record.name == name

/-- Whether a record is applied under the same key, and is to keep a part of its
rules. -/
def OnlyLoses (l : Ledger) (record : Record) (rules : List Rule) : Prop :=
  ∃ known ∈ l.applied.get record.direction, known.record.name = record.name ∧
    known.record.orderKey = record.orderKey ∧ isSubsequence rules known.rules = true

instance (l : Ledger) (record : Record) (rules : List Rule) :
    Decidable (l.OnlyLoses record rules) :=
  inferInstanceAs (Decidable (∃ known ∈ l.applied.get record.direction, _))

/-- The rules of a record in its chain for which it is given no rule any more. -/
def dropped (l : Ledger) (record : Record) (rules : List Rule) : List Rule :=
  (l.recorded record.name record.direction).filter fun r => !rules.any fun x => x.sameMatch r

end Ledger

namespace Site

open Layout (tags)

/-! ### The place of a record -/

theorem findIdx_append_cons {α : Type} {p : α → Bool} {pre post : List α} {x : α}
    (hpre : ∀ y ∈ pre, p y = false) (hx : p x = true) :
    (pre ++ x :: post).findIdx p = pre.length := by
  have hnone : pre.findIdx p = pre.length := List.findIdx_eq_length.2 hpre
  rw [List.findIdx_append, hnone, if_neg (Nat.lt_irrefl _), List.findIdx_cons, hx, cond_true,
    Nat.zero_add]

/-- A record that is placed comes to stand behind the other records that come
before it. -/
theorem findIdx_place {entries : List Applied} (h : Distinct entries) (record : Record)
    (rules : List Rule) :
    ((place entries record rules).entries.findIdx fun a => a.record.name == record.name) =
      record.orderKey.offset
        ((entries.filter fun a => a.record.name != record.name).map (·.record.orderKey)) := by
  rw [place_entries h, inserted, offset_map]
  refine findIdx_append_cons (fun a ha => ?_) (beq_self_eq_true _)
  have hne := (List.mem_filter.1 ((List.takeWhile_sublist _).subset ha)).2
  rwa [bne, Bool.not_eq_true'] at hne

/-- The chain is built anew from the first of both places of a record. -/
theorem min_position_place {entries : List Applied} (h : Distinct entries) (record : Record)
    (rules : List Rule) :
    min (entries.findIdx fun a => a.record.name == record.name)
        ((place entries record rules).entries.findIdx fun a => a.record.name == record.name) =
      (place entries record rules).start := by
  rw [findIdx_place h]
  unfold place
  split
  · rename_i i hi
    rw [← eraseIdx_eq_filter h hi]
    obtain ⟨pre, x, post, rfl, rfl, hx, hpre⟩ := findIdx?_split hi
    rw [findIdx_append_cons hpre hx]
  · rename_i hi
    have hnone := List.findIdx?_eq_none_iff.1 hi
    have hkeep : (entries.filter fun a => a.record.name != record.name) = entries :=
      List.filter_eq_self.2 fun a ha => by simpa using hnone a ha
    rw [hkeep, List.findIdx_eq_length.2 hnone, Nat.min_eq_right]
    rw [offset_map]
    exact (List.takeWhile_sublist _).length_le

/-! ### Firewalls in step -/

variable {s s' : Site} {dir : String → Direction} {left : PerDirection Layout}
  {ops : List Operation} {record : Record} {rules : List Rule} {d : Direction} {L : Layout}
  {entries : List Applied}

theorem InStep.run (h : s.InStep dir left) (hleft : ∀ d, ∀ e ∈ left.get d, e.1 = none)
    (hops : ∀ o ∈ ops, o.Proper dir)
    (hfine : (s.run ops).backend.failures Call.any = s.backend.failures Call.any) :
    (s.run ops).InStep dir left := by
  induction ops generalizing s with
  | nil => exact h
  | cons o rest ih =>
    obtain ⟨ho, hrest⟩ := List.forall_mem_cons.1 hops
    have hle := failures_le_step s o Call.any
    have hle' := failures_le_run (s.step o).2 rest Call.any
    have hrun : s.run (o :: rest) = (s.step o).2.run rest := rfl
    rw [hrun] at hfine ⊢
    exact ih (h.step hleft ho (by omega)).2 hrest (by omega)

/-- A smooth run leaves the firewall in step. -/
theorem Smooth.inStep {s₀ : Site} (h : s₀.Smooth dir ops) :
    ∃ left : PerDirection Layout, (∀ d, ∀ e ∈ left.get d, e.1 = none) ∧
      (s₀.run ops).InStep dir left := by
  obtain ⟨b, hb, hcreate⟩ := h.created
  exact ⟨_, fun _ => owner_of_mem_remnants,
    (InStep.created hb hcreate).run (fun _ => owner_of_mem_remnants) h.proper h.fine⟩

theorem InStep.distinct (h : s.InStep dir left) (d : Direction) :
    Distinct (s.ledger.applied.get d) := by
  obtain ⟨wanted, hmeets, hsound⟩ := h.meets
  exact hmeets.distinct hsound d

/-- An applied record has the direction that its name stands for. -/
theorem InStep.direction (h : s.InStep dir left) {a : Applied}
    (ha : a ∈ s.ledger.applied.get d) : dir a.record.name = d := by
  obtain ⟨wanted, hmeets, hsound⟩ := h.meets
  obtain ⟨hwanted, hdirection⟩ := hmeets.mem_wanted ha
  rw [← hsound.direction a hwanted, hdirection]

theorem InStep.remembered (h : s.InStep dir left) (d : Direction) : s.Remembered d :=
  (h.upright d).belief

/-- The chains of a firewall in step hold the entries of all applied records. -/
theorem InStep.complete (h : s.InStep dir left) : ∃ U, s.Laid U ∧ ∀ d,
    tags (U.get d) = tags (left.get d) ++ tags (entriesOf (s.ledger.applied.get d)) := by
  obtain ⟨U, hU, hfiled⟩ := h.filed
  refine ⟨U, hU, fun d => ?_⟩
  obtain ⟨k, htags, hall⟩ := hfiled d
  rwa [List.take_of_length_le (hall trivial)] at htags

/-- An entry is one of those that were left, or belongs to one of the records. -/
theorem owner_of_tags (stray : Layout) (hL : tags L = tags stray ++ tags (entriesOf entries))
    {e : Option String × Rule} (he : e ∈ L) :
    (∃ e' ∈ stray, e'.1 = e.1) ∨ ∃ a ∈ entries, e.1 = some a.record.name := by
  have hmem : (e.1, e.2.body) ∈ tags L := List.mem_map_of_mem he
  rw [hL, List.mem_append] at hmem
  rcases hmem with hmem | hmem <;> obtain ⟨e', he', heq⟩ := List.mem_map.1 hmem
  · exact .inl ⟨e', he', (Prod.mk.inj heq).1⟩
  · obtain ⟨a, ha, r, -, rfl⟩ := mem_entriesOf.1 he'
    exact .inr ⟨a, ha, (Prod.mk.inj heq).1.symm⟩

/-- The entries of one of the records are those of its name. -/
theorem filter_entriesOf_name (h : Distinct entries) {a : Applied} (ha : a ∈ entries) :
    (entriesOf entries).filter (Layout.passes (Layout.ofName a.record.name)) = entriesOf [a] := by
  have hsame : (entriesOf entries).filter (Layout.passes (Layout.ofName a.record.name)) =
      (entriesOf entries).filter fun e => !e.1.any fun n => n != a.record.name := by
    refine List.filter_congr fun e he => ?_
    obtain ⟨x, -, r, -, rfl⟩ := mem_entriesOf.1 he
    simp [bne]
  rw [hsame, filter_entriesOf]
  congr 1
  obtain ⟨pre, post, rfl⟩ := List.append_of_mem ha
  obtain ⟨-, hpost, hpre⟩ := List.pairwise_append.1 h
  have hnone : (pre.filter fun x => !(x.record.name != a.record.name)) = [] :=
    List.filter_eq_nil_iff.2 fun x hx => by simpa using hpre x hx a List.mem_cons_self
  have hnone' : (post.filter fun x => !(x.record.name != a.record.name)) = [] :=
    List.filter_eq_nil_iff.2 fun x hx => by
      simpa using Ne.symm ((List.pairwise_cons.1 hpost).1 x hx)
  rw [List.filter_append, hnone, List.filter_cons_of_pos (by simp), hnone', List.nil_append]

theorem inSync_of_tags {stray : Layout} (hstray : ∀ e ∈ stray, e.1 = none)
    (hL : tags L = tags stray ++ tags (entriesOf entries)) (h : Distinct entries) {a : Applied}
    (ha : a ∈ entries) : InSync L a := by
  have htags (U : Layout) : tags (U.filter (Layout.passes (Layout.ofName a.record.name))) =
      (tags U).filter (Layout.passes (Layout.ofName a.record.name)) :=
    Layout.tags_filter (fun _ => rfl) U
  have hnone : stray.filter (Layout.passes (Layout.ofName a.record.name)) = [] :=
    List.filter_eq_nil_iff.2 fun e he => by simp [hstray e he]
  rw [InSync, htags, hL, List.filter_append, ← htags, ← htags, hnone, filter_entriesOf_name h ha]
  rfl

/-- In a firewall in step every record has its rules. -/
theorem InStep.inSync (h : s.InStep dir left) (hleft : ∀ d, ∀ e ∈ left.get d, e.1 = none)
    {a : Applied} (ha : a ∈ s.ledger.applied.get d) : s.ledger.inSync d a = true := by
  obtain ⟨U, hU, htags⟩ := h.complete
  exact (inSync_iff hU.records d a).2 (inSync_of_tags (hleft d) (htags d) (h.distinct d) ha)

theorem InStep.firstOutOfSync (h : s.InStep dir left)
    (hleft : ∀ d, ∀ e ∈ left.get d, e.1 = none) (d : Direction) :
    s.ledger.firstOutOfSync d = none :=
  List.findIdx?_eq_none_iff.2 fun a ha => by simp [h.inSync hleft ha]

/-- If all records have their rules, a chain is built anew from the place of the
record on and no earlier. -/
theorem rebuildStart_of_inSync {l : Ledger}
    (h : ∀ a ∈ l.applied.get record.direction, l.inSync record.direction a = true) :
    rebuildStart l record rules = (place (l.applied.get record.direction) record rules).start := by
  unfold rebuildStart
  dsimp only
  split
  · rename_i i hi
    refine Nat.min_eq_left (Nat.le_of_not_lt fun hlt => ?_)
    obtain ⟨pre, x, post, hsplit, rfl, hx, -⟩ := findIdx?_split hi
    rw [PerDirection.get_set_self] at hsplit
    -- in front of its place the records are those that were there
    have hmem : x ∈ (place (l.applied.get record.direction) record rules).entries.take
        (place (l.applied.get record.direction) record rules).start := by
      rw [hsplit, List.mem_take_iff_getElem]
      exact ⟨pre.length, by rw [List.length_append, List.length_cons]; omega, by simp⟩
    rw [take_place _ record rules (Nat.le_refl _)] at hmem
    have hsync := h x (List.mem_of_mem_take hmem)
    rw [Bool.not_eq_true'] at hx
    exact absurd (hsync.symm.trans hx) nofun
  · rfl

/-! ### An apply that only takes rules -/

/-- An apply that succeeds shrinks its record, or builds the chain anew and sets
the default actions. -/
theorem apply_cases_of_ok (hok : (s.step (.apply record rules)).1 = .ok ()) :
    ∃ b, s.checkAlive = (.ok (), { s with backend := b }) ∧
      ((∃ i, shrinkable? s.ledger record rules = some i ∧
          s.step (.apply record rules) = shrink { s with backend := b } i record rules) ∨
        (shrinkable? s.ledger record rules = none ∧
          s.step (.apply record rules) =
            settle (work { s with backend := b } (.apply record rules)))) := by
  obtain ⟨b, -, ⟨e, -, happly, -⟩ | ⟨halive, ⟨i, hi, happly, -⟩ |
    ⟨hnone, worked, rfl, happly, -⟩⟩⟩ := apply_cases s record rules
  · rw [step, happly] at hok
    cases hok
  · exact ⟨b, halive, .inl ⟨i, hi, happly⟩⟩
  · exact ⟨b, halive, .inr ⟨hnone, happly⟩⟩

/-- If all records have their rules, a record is shrunk just if it only loses
rules. -/
theorem isSome_shrinkable_iff {l : Ledger} (h : Distinct (l.applied.get record.direction))
    (hsync : l.firstOutOfSync record.direction = none) :
    (shrinkable? l record rules).isSome = true ↔ l.OnlyLoses record rules := by
  constructor
  · intro hsome
    obtain ⟨i, hi⟩ := Option.isSome_iff_exists.1 hsome
    obtain ⟨pre, known, post, hsplit, -, hname, hkey, hsub, -⟩ := shrinkable_cases hi
    exact ⟨known, by simp [hsplit], hname, hkey, hsub⟩
  · rintro ⟨known, hknown, hname, hkey, hsub⟩
    have hfound : ((l.applied.get record.direction).findIdx? fun a =>
        a.record.name == record.name).isSome = true := by
      rw [List.findIdx?_isSome]
      exact List.any_eq_true.2 ⟨known, hknown, beq_iff_eq.2 hname⟩
    obtain ⟨i, hi⟩ := Option.isSome_iff_exists.1 hfound
    obtain ⟨pre, x, post, hsplit, rfl, hx, -⟩ := findIdx?_split hi
    have hsame : x = known :=
      Distinct.eq h (by simp [hsplit]) hknown ((beq_iff_eq.1 hx).trans hname.symm)
    have hget : (l.applied.get record.direction)[pre.length]? = some known := by
      simp [hsplit, hsame]
    simp [shrinkable?, hi, hget, hkey, hsub, hsync]

/-- In a firewall in step a record is only shrunk if it only loses rules. -/
theorem InStep.shrinkable_eq_none (h : s.InStep dir left)
    (hleft : ∀ d, ∀ e ∈ left.get d, e.1 = none) (hloses : ¬s.ledger.OnlyLoses record rules) :
    shrinkable? s.ledger record rules = none := by
  rw [← isSome_shrinkable_iff (h.distinct _) (h.firstOutOfSync hleft _)] at hloses
  exact Option.not_isSome_iff_eq_none.1 hloses

/-- What an apply does that only takes rules of a record: it appends nothing and
deletes just the rules that are dropped, each under the number it has. -/
structure Drops (s s' : Site) (calls : List Call) (record : Record) (rules : List Rule) : Prop where
  added : Call.additions calls = []
  gone : Call.deletions calls = ((s.ledger.dropped record rules).map (·.id)).reverse
  held : ∀ r ∈ s.ledger.dropped record rules, r ∈ s.chain record.direction
  chain : s'.chain record.direction = Rule.numberFrom 0
    ((s.chain record.direction).filter fun r => decide (r ∉ s.ledger.dropped record rules))
  recorded : Ledger.sameRules (s'.ledger.recorded record.name record.direction) rules = true

theorem dropped_eq {U : PerDirection Layout} (hU : s.Laid U) (record : Record)
    (rules : List Rule) : s.ledger.dropped record rules =
      (U.get record.direction).chosen (stale record.name rules) := by
  rw [Ledger.dropped, hU.records.recorded]
  exact Layout.filter_chosen _ (Layout.ofName record.name) fun r =>
    !rules.any fun x => x.sameMatch r

/-- A shrunk record leaves the chain without the rules that are dropped. -/
theorem chain_shrink {U : PerDirection Layout} (hU : s.Laid U) {i : Nat}
    (hok : (s.shrink i record rules).1 = .ok ()) :
    (s.shrink i record rules).2.chain record.direction = Rule.numberFrom 0
      ((s.chain record.direction).filter fun r => decide (r ∉ s.ledger.dropped record rules)) := by
  obtain ⟨V, hV, hthin, hgone⟩ := hU.shrink i record rules
  rw [chain_eq hV.holds, PerDirection.get_set_self, hthin.eq_of_none (hgone hok),
    Layout.rules_filter, ← dropped_eq hU, ← chain_eq hU.holds]

theorem mem_chain_of_dropped {U : PerDirection Layout} (hU : s.Laid U) :
    ∀ r ∈ s.ledger.dropped record rules, r ∈ s.chain record.direction := by
  intro r hr
  rw [dropped_eq hU] at hr
  obtain ⟨e, he, -, hrule⟩ := Layout.mem_chosen.1 hr
  rw [chain_eq hU.holds]
  exact Layout.mem_rules.2 ⟨e, he, hrule⟩

/-! ### An apply that builds the chain anew -/

/-- What an apply does that builds a chain anew from the record at a place on, in
front of which there is a number of rules: these stay, under the numbers they
have, and the rules of the other records come behind them. -/
structure Rebuilds (s s' : Site) (calls : List Call) (d : Direction) (k n : Nat) : Prop where
  records : (s'.ledger.applied.get d).take k = (s.ledger.applied.get d).take k
  front : ∀ a ∈ (s.ledger.applied.get d).take k,
    s'.ledger.recorded a.record.name d = s.ledger.recorded a.record.name d ∧
      ∀ r ∈ s.ledger.recorded a.record.name d, r ∈ s.chain d ∧ r.id < n
  gone : ∀ id ∈ Call.deletions calls, n ≤ id
  added : Call.additions calls =
    Rule.numberFrom n (((s'.ledger.applied.get d).drop k).flatMap (·.rules))
  chain : s'.chain d = (s.chain d).take n ++ Call.additions calls

/-- A layout is split between two records. -/
theorem exists_split_tags {stray : Layout}
    (hL : tags L = tags stray ++ tags (entriesOf entries)) (k : Nat) :
    ∃ P Q, L = P ++ Q ∧ tags P = tags stray ++ tags (entriesOf (entries.take k)) ∧
      tags Q = tags (entriesOf (entries.drop k)) := by
  rw [← List.take_append_drop k entries, entriesOf_append, Layout.tags_append,
    ← List.append_assoc] at hL
  obtain ⟨P, Q, rfl, hP, hQ⟩ := List.map_eq_append_iff.1 hL
  exact ⟨P, Q, rfl, hP, hQ⟩

def rebuiltNames (l : Ledger) (record : Record) (rules : List Rule) : List String :=
  (rebuiltPart l record rules).map (·.record.name)

/-- Entries of records under some names pass the test for the names. -/
theorem passes_of_tags {names : List String} (hL : tags L = tags (entriesOf entries))
    (hnames : ∀ a ∈ entries, names.contains a.record.name = true) :
    ∀ e ∈ L, Layout.passes (Layout.ofNames names) e = true := by
  intro e he
  rcases owner_of_tags [] hL he with ⟨e', he', -⟩ | ⟨a, ha, howner⟩
  · cases he'
  · rw [Layout.passes_ofNames, howner, Option.any_some, hnames a ha]

theorem not_passes_of_tags {names : List String} {stray : Layout}
    (hstray : ∀ e ∈ stray, e.1 = none) (hL : tags L = tags stray ++ tags (entriesOf entries))
    (hnames : ∀ a ∈ entries, names.contains a.record.name = false) :
    ∀ e ∈ L, Layout.passes (Layout.ofNames names) e = false := by
  intro e he
  rw [Layout.passes_ofNames]
  rcases owner_of_tags stray hL he with ⟨e', he', howner⟩ | ⟨a, ha, howner⟩
  · rw [← howner, hstray e' he', Option.any_none]
  · rw [howner, Option.any_some, hnames a ha]

/-- From the place on from which the chain is built anew, all records are
rebuilt. -/
theorem rebuilt_of_mem_drop (h : Distinct (s.ledger.applied.get record.direction)) :
    ∀ a ∈ (s.ledger.applied.get record.direction).drop (rebuildStart s.ledger record rules),
      (rebuiltNames s.ledger record rules).contains a.record.name = true := by
  intro a ha
  obtain ⟨b, hb, hname⟩ := exists_mem_drop_place h record rules (rebuildStart_le _ _ _) a ha
  rw [List.contains_iff_mem, ← hname]
  exact List.mem_map_of_mem hb

/-- A name has one direction, so no record of the other direction is rebuilt. -/
theorem InStep.not_rebuilt (h : s.InStep dir left)
    (ho : (Operation.apply record rules).Proper dir) {d' : Direction}
    (hd : d' ≠ record.direction) : ∀ a ∈ s.ledger.applied.get d',
      (rebuiltNames s.ledger record rules).contains a.record.name = false := by
  obtain ⟨wanted, hmeets, hsound⟩ := h.meets
  intro a ha
  rw [Bool.eq_false_iff, ne_eq, List.contains_iff_mem]
  intro hmem
  obtain ⟨b, hb, hname⟩ := List.mem_map.1 hmem
  have hdirection := rebuiltPart_direction hmeets hsound ho b hb
  rw [hname, h.direction ha] at hdirection
  exact hd hdirection

theorem InStep.not_rebuilt_of_mem_keptPart (h : s.InStep dir left)
    (ho : (Operation.apply record rules).Proper dir) :
    ∀ a ∈ keptPart s.ledger record rules,
      (rebuiltNames s.ledger record rules).contains a.record.name = false := by
  obtain ⟨wanted, hmeets, hsound⟩ := h.meets
  exact keptPart_ne hmeets hsound ho

/-- The work of an apply leaves the default action of the other direction as it
should be. -/
theorem remembered_work (h : s.InStep dir left) (b : Backend) (record : Record)
    (rules : List Rule) {d' : Direction} (hd : d' ≠ record.direction) :
    (work { s with backend := b } (.apply record rules)).2.Remembered d' := by
  have hworked := Worked.resplice (placed { s with backend := b } record rules) record.direction
    (rebuildStart s.ledger record rules)
  have hdefaults : (work { s with backend := b } (.apply record rules)).2.ledger.defaults =
      s.ledger.defaults := hworked.defaults
  rw [Remembered, hdefaults, due_eq, applied_work_apply, PerDirection.get_set_of_ne _ _ hd,
    ← due_eq]
  exact h.remembered d'

/-- The rules of a record that stands in front are recorded as before, and stand
in the chain before the place from which on it is built anew. -/
theorem recorded_front {U V : PerDirection Layout} {P Q R : Layout} (hU : s.Laid U)
    (hV : s'.Laid V) (hsplit : U.get d = P ++ Q) (hsplit' : V.get d = P ++ R) {name : String}
    (hQ : ∀ e ∈ Q, Layout.passes (Layout.ofName name) e = false)
    (hR : ∀ e ∈ R, Layout.passes (Layout.ofName name) e = false) :
    s'.ledger.recorded name d = s.ledger.recorded name d ∧
      ∀ r ∈ s.ledger.recorded name d, r ∈ s.chain d ∧ r.id < P.length := by
  have hrecorded : s.ledger.recorded name d = P.chosen (Layout.ofName name) := by
    rw [hU.records.recorded, hsplit, Layout.chosen_append_of_none P hQ]
  refine ⟨?_, fun r hr => ?_⟩
  · rw [hV.records.recorded, hsplit', Layout.chosen_append_of_none P hR, hrecorded]
  · rw [hrecorded] at hr
    obtain ⟨e, he, -, hrule⟩ := Layout.mem_chosen.1 hr
    obtain ⟨hlt, -⟩ := List.getElem?_eq_some_iff.1 he
    rw [chain_eq hU.holds, hsplit]
    exact ⟨Layout.mem_rules.2 ⟨e, by rwa [List.getElem?_append_left hlt], hrule⟩, hlt⟩

/-- The calls of an apply that builds the chain anew, and the layout that they
leave. -/
theorem InStep.rebuild (h : s.InStep dir left) (hleft : ∀ d, ∀ e ∈ left.get d, e.1 = none)
    (ho : (Operation.apply record rules).Proper dir)
    (hok : (s.step (.apply record rules)).1 = .ok ())
    (hnone : shrinkable? s.ledger record rules = none) {U : PerDirection Layout} (hU : s.Laid U)
    (htags : ∀ d, tags (U.get d) =
      tags (left.get d) ++ tags (entriesOf (s.ledger.applied.get d))) {P Q : Layout}
    (hsplit : U.get record.direction = P ++ Q)
    (hP : tags P = tags (left.get record.direction) ++
      tags (entriesOf (keptPart s.ledger record rules)))
    (hQ : tags Q = tags (entriesOf ((s.ledger.applied.get record.direction).drop
      (rebuildStart s.ledger record rules)))) :
    ∃ gone V, Edits record.direction s (s.step (.apply record rules)).2 gone
        (Rule.numberFrom P.length ((rebuiltPart s.ledger record rules).flatMap (·.rules))) ∧
      (∀ id ∈ gone, P.length ≤ id ∧ id < P.length + Q.length) ∧
      (s.step (.apply record rules)).2.Laid V ∧
      V.get record.direction = P ++ entriesOf (rebuiltPart s.ledger record rules) := by
  obtain ⟨b, halive, ⟨i, hi, -⟩ | ⟨-, hstep⟩⟩ := apply_cases_of_ok hok
  · rw [hnone] at hi
    cases hi
  have hchecked := hU.checkAlive
  have hasked := Edits.checkAlive record.direction s
  rw [halive] at hchecked hasked
  rw [hstep] at hok ⊢
  have hplaced : Laid (placed { s with backend := b } record rules) U := hchecked.of_rules rfl
  have hfront := not_passes_of_tags (hleft _) hP (h.not_rebuilt_of_mem_keptPart ho)
  have hback := passes_of_tags hQ (rebuilt_of_mem_drop (h.distinct _))
  have hother (d' : Direction) (hd : d' ≠ record.direction) :=
    not_passes_of_tags (hleft d') (htags d') (h.not_rebuilt ho hd)
  obtain ⟨gone, V, hedits, hbounds, hV, hV'⟩ := Edits.resplice (drop_placed _ record rules) hplaced
    hsplit hfront hback hother (Outcome.both_eq_ok.1 hok).1
  have hset := Edits.updateDefaults fun d' hd => remembered_work h b record rules hd
  exact ⟨gone, V, (hasked.trans ((Edits.ledger _ _ _).trans hedits)).andThen hset, hbounds,
    hV.updateDefaults, hV'⟩

theorem mem_applied_of_ok (h : Distinct (s.ledger.applied.get record.direction))
    (hok : (s.step (.apply record rules)).1 = .ok ()) :
    ⟨record, rules⟩ ∈ (s.step (.apply record rules)).2.ledger.applied.get record.direction := by
  rcases applied_step s (.apply record rules) with ⟨hfailed, -⟩ | happlied
  · exact absurd hok hfailed
  · rw [happlied]
    exact (Operation.perm_enters_apply h rules).mem_iff.2 List.mem_cons_self

theorem applied_of_not_shrinkable (hok : (s.step (.apply record rules)).1 = .ok ())
    (hnone : shrinkable? s.ledger record rules = none) :
    (s.step (.apply record rules)).2.ledger.applied.get record.direction =
      (place (s.ledger.applied.get record.direction) record rules).entries := by
  rcases applied_step s (.apply record rules) with ⟨hfailed, -⟩ | happlied
  · exact absurd hok hfailed
  · rw [happlied, Operation.enters, hnone, PerDirection.get_set_self]

theorem place_last (h : Distinct entries) (hlast : ∀ a ∈ entries, a.record.name ≠ record.name ∧
      a.record.orderKey.le record.orderKey = true) :
    (place entries record rules).entries = entries ++ [⟨record, rules⟩] := by
  have hkeep : (entries.filter fun a => a.record.name != record.name) = entries :=
    List.filter_eq_self.2 fun a ha => by simpa using (hlast a ha).1
  rw [place_entries h, hkeep, inserted, List.takeWhile_eq_self_iff.2 fun a ha => (hlast a ha).2,
    List.dropWhile_eq_nil_iff.2 fun a ha => (hlast a ha).2]

/-- If a record only loses rules, those that are dropped are deleted and no other
ones. -/
theorem InStep.drops (h : s.InStep dir left) (hleft : ∀ d, ∀ e ∈ left.get d, e.1 = none)
    (hok : (s.step (.apply record rules)).1 = .ok ())
    (h' : (s.step (.apply record rules)).2.InStep dir left)
    (hloses : s.ledger.OnlyLoses record rules) :
    (∃ gone added, Edits record.direction s (s.step (.apply record rules)).2 gone added) ∧
      Drops s (s.step (.apply record rules)).2 (s.calls (.apply record rules)) record rules := by
  obtain ⟨U, hU, -⟩ := h.complete
  have hsome := (isSome_shrinkable_iff (h.distinct record.direction)
    (h.firstOutOfSync hleft record.direction)).2 hloses
  have hrecorded := h'.inSync hleft (mem_applied_of_ok (h.distinct record.direction) hok)
  obtain ⟨b, halive, ⟨i, -, hstep⟩ | ⟨hnone, -⟩⟩ := apply_cases_of_ok hok
  · have hchecked := hU.checkAlive
    have hasked := Edits.checkAlive record.direction s
    rw [halive] at hchecked hasked
    have hedits := hasked.trans (.shrink hchecked i record rules)
    rw [← hstep] at hedits
    obtain ⟨-, hgone, hadded⟩ := hedits.calls_eq
    have hchain : Site.chain { s with backend := b } record.direction =
        s.chain record.direction := by
      rw [chain_eq hchecked.holds, chain_eq hU.holds]
    have hdone : (shrink { s with backend := b } i record rules).1 = .ok () := by rw [← hstep, hok]
    have hshrunk := chain_shrink hchecked hdone
    rw [← hstep, hchain] at hshrunk
    exact ⟨⟨_, _, hedits⟩, hadded, hgone, mem_chain_of_dropped hU, hshrunk, hrecorded⟩
  · rw [hnone] at hsome
    cases hsome

/-- Entries of rebuilt names do not belong to a name that is not rebuilt. -/
theorem passes_ofName_of_ofNames {names : List String} {name : String}
    (hname : names.contains name = false)
    (hL : ∀ e ∈ L, Layout.passes (Layout.ofNames names) e = true) :
    ∀ e ∈ L, Layout.passes (Layout.ofName name) e = false := by
  intro e he
  have hpass := hL e he
  rw [Layout.passes_ofName, beq_eq_false_iff_ne]
  intro howner
  rw [Layout.passes_ofNames, howner, Option.any_some, hname] at hpass
  cases hpass

theorem map_snd_entriesOf (entries : List Applied) :
    (entriesOf entries).map (·.2) = entries.flatMap (·.rules) := by
  simp [entriesOf, List.map_flatMap, Function.comp_def]

theorem InStep.start_eq (h : s.InStep dir left) (hleft : ∀ d, ∀ e ∈ left.get d, e.1 = none)
    (hok : (s.step (.apply record rules)).1 = .ok ())
    (hnone : shrinkable? s.ledger record rules = none) :
    min (s.ledger.position record.direction record.name)
        ((s.step (.apply record rules)).2.ledger.position record.direction record.name) =
      rebuildStart s.ledger record rules := by
  rw [Ledger.position, Ledger.position, applied_of_not_shrinkable hok hnone,
    min_position_place (h.distinct record.direction),
    rebuildStart_of_inSync fun a ha => h.inSync hleft ha]

/-- If a record does not only lose rules, the chain is built anew from the first
of both its places on. If it is new and comes last, nothing is deleted. -/
theorem InStep.rebuilds (h : s.InStep dir left) (hleft : ∀ d, ∀ e ∈ left.get d, e.1 = none)
    (ho : (Operation.apply record rules).Proper dir)
    (hok : (s.step (.apply record rules)).1 = .ok ())
    (hloses : ¬s.ledger.OnlyLoses record rules) :
    let d := record.direction
    let s' := (s.step (.apply record rules)).2
    let k := min (s.ledger.position d record.name) (s'.ledger.position d record.name)
    (∃ gone added, Edits d s s' gone added) ∧ ∃ n,
      Rebuilds s s' (s.calls (.apply record rules)) d k n ∧
      ((s.ledger.applied.get d).length ≤ k →
        Call.deletions (s.calls (.apply record rules)) = [] ∧ n = (s.chain d).length) := by
  intro d s' k
  obtain ⟨U, hU, htags⟩ := h.complete
  have hnone := h.shrinkable_eq_none hleft hloses
  have hk : k = rebuildStart s.ledger record rules := h.start_eq hleft hok hnone
  have happlied : s'.ledger.applied.get d = _ := applied_of_not_shrinkable hok hnone
  -- `P` are the entries in front of the place, which stay, and `Q` those from there on
  obtain ⟨P, Q, hsplit, hP, hQ⟩ :=
    exists_split_tags (htags d) (rebuildStart s.ledger record rules)
  obtain ⟨gone, V, hedits, hbounds, hV, hV'⟩ := h.rebuild hleft ho hok hnone hU htags hsplit hP hQ
  obtain ⟨-, hgone, hadded⟩ := hedits.calls_eq
  have hkept : (s.ledger.applied.get d).take k = keptPart s.ledger record rules := by
    rw [hk, keptPart]
  have hrebuilt : (s'.ledger.applied.get d).drop k = rebuiltPart s.ledger record rules := by
    rw [happlied, hk, rebuiltPart]
  refine ⟨⟨_, _, hedits⟩, P.length, ⟨?_, fun a ha => ?_, ?_, ?_, ?_⟩, fun hlast => ?_⟩
  · rw [happlied, hk]
    exact take_place _ record rules (rebuildStart_le _ record rules)
  · rw [hkept] at ha
    have hname := h.not_rebuilt_of_mem_keptPart ho a ha
    have hback := passes_of_tags hQ (rebuilt_of_mem_drop (h.distinct _))
    have hrebuild (b : Applied) (hb : b ∈ rebuiltPart s.ledger record rules) :
        (rebuiltNames s.ledger record rules).contains b.record.name = true :=
      List.contains_iff_mem.2 (List.mem_map_of_mem hb)
    have hbehind := passes_of_tags rfl hrebuild
    exact recorded_front hU hV hsplit hV' (passes_ofName_of_ofNames hname hback)
      (passes_ofName_of_ofNames hname hbehind)
  · rw [hgone]
    exact fun id hid => (hbounds id hid).1
  · rw [hadded, hrebuilt]
  · rw [chain_eq hV.holds, chain_eq hU.holds, hV', hsplit, Layout.rules_concat,
      Layout.rules_concat, map_snd_entriesOf, hadded, ← P.length_rules, List.take_left]
  · -- behind all records there are no entries
    rw [hk] at hlast
    rw [List.drop_eq_nil_of_le hlast] at hQ
    obtain rfl : Q = [] := List.map_eq_nil_iff.1 hQ
    rw [List.append_nil] at hsplit
    refine ⟨?_, by rw [chain_eq hU.holds, hsplit, Layout.length_rules]⟩
    rw [hgone, List.eq_nil_iff_forall_not_mem]
    intro id hid
    obtain ⟨hle, hlt⟩ := hbounds id hid
    exact Nat.not_le_of_lt hlt hle

/-- A new record that comes behind all others is only appended. -/
theorem InStep.appends (h : s.InStep dir left) (hleft : ∀ d, ∀ e ∈ left.get d, e.1 = none)
    (ho : (Operation.apply record rules).Proper dir)
    (hok : (s.step (.apply record rules)).1 = .ok ())
    (hlast : ∀ a ∈ s.ledger.applied.get record.direction, a.record.name ≠ record.name ∧
      a.record.orderKey.le record.orderKey = true) :
    Call.deletions (s.calls (.apply record rules)) = [] ∧
      (s.step (.apply record rules)).2.chain record.direction = s.chain record.direction ++
        Rule.numberFrom (s.chain record.direction).length rules := by
  have hloses : ¬s.ledger.OnlyLoses record rules := by
    rintro ⟨known, hknown, hname, -⟩
    exact (hlast known hknown).1 hname
  have hnone := h.shrinkable_eq_none hleft hloses
  have happlied := (applied_of_not_shrinkable hok hnone).trans
    (place_last (h.distinct record.direction) hlast)
  have hold : s.ledger.position record.direction record.name =
      (s.ledger.applied.get record.direction).length :=
    List.findIdx_eq_length.2 fun a ha => by simpa using (hlast a ha).1
  have hnew : (s.step (.apply record rules)).2.ledger.position record.direction record.name =
      (s.ledger.applied.get record.direction).length := by
    rw [Ledger.position, happlied]
    exact findIdx_append_cons (fun a ha => by simpa using (hlast a ha).1) (beq_self_eq_true _)
  obtain ⟨-, n, hrebuilds, hbehind⟩ := h.rebuilds hleft ho hok hloses
  rw [hold, hnew, Nat.min_self] at hrebuilds hbehind
  obtain ⟨hgone, rfl⟩ := hbehind (Nat.le_refl _)
  refine ⟨hgone, ?_⟩
  rw [hrebuilds.chain, List.take_length, hrebuilds.added, happlied, List.drop_left,
    List.flatMap_singleton]

/-- In a run in which no call fails, an apply makes no call about the chain of the
other direction. If it only takes rules of a record, it appends nothing and
deletes just the rules that are dropped. Otherwise the rules of the records in
front of the first of both places of the record stay as they are; and if the
record is new and comes last, nothing is deleted. -/
theorem apply_disturbs_least {s₀ : Site} (h : s₀.Smooth dir (ops ++ [.apply record rules])) :
    let s := s₀.run ops
    let s' := s₀.run (ops ++ [.apply record rules])
    let d := record.direction
    let calls := s.calls (.apply record rules)
    ((∀ call ∈ calls, call.keepsTo d.chain = true) ∧
      ∀ c, c ≠ d.chain → s'.held?.map (·.get c) = s.held?.map (·.get c)) ∧
    (s.ledger.OnlyLoses record rules → Drops s s' calls record rules) ∧
    (¬s.ledger.OnlyLoses record rules → ∃ n, Rebuilds s s' calls d
      (min (s.ledger.position d record.name) (s'.ledger.position d record.name)) n) ∧
    ((∀ a ∈ s.ledger.applied.get d, a.record.name ≠ record.name ∧
        a.record.orderKey.le record.orderKey = true) →
      Call.deletions calls = [] ∧
        s'.chain d = s.chain d ++ Rule.numberFrom (s.chain d).length rules) := by
  have hdone := h.of_isPrefix (List.prefix_append ops [.apply record rules])
  obtain ⟨left, hleft, hs⟩ := hdone.inStep
  have ho := h.proper _ (List.mem_append_right ops (List.mem_singleton_self _))
  have hfine := h.fine.trans hdone.fine.symm
  rw [run_concat] at hfine
  obtain ⟨hok, hs'⟩ := hs.step hleft ho hfine
  intro s s' d calls
  have hstep : s' = (s.step (.apply record rules)).2 := run_concat s₀ ops _
  rw [hstep]
  have hedits : ∃ gone added, Edits d s (s.step (.apply record rules)).2 gone added := by
    by_cases hloses : s.ledger.OnlyLoses record rules
    · exact (hs.drops hleft hok hs' hloses).1
    · exact (hs.rebuilds hleft ho hok hloses).1
  obtain ⟨gone, added, hedits⟩ := hedits
  refine ⟨⟨hedits.calls_eq.1, hedits.other⟩, fun hloses => (hs.drops hleft hok hs' hloses).2,
    fun hloses => ?_, hs.appends hleft ho hok⟩
  obtain ⟨-, n, hrebuilds, -⟩ := hs.rebuilds hleft ho hok hloses
  exact ⟨n, hrebuilds⟩

/-- A record is put between two others: the rule of the one in front stays, that
of the other is deleted and comes back behind. -/
theorem apply_disturbs_least_between :
    let s₀ := newborn Backend.empty
    let forward : Rule := { Rule.blank with action := .forward }
    let ops := [Operation.apply (.plain "a" 3 .incoming) [Rule.blank],
      .apply (.plain "c" 7 .incoming) [forward]]
    let o := Operation.apply (.plain "b" 5 .incoming) [Rule.blank]
    s₀.Smooth (fun _ => .incoming) (ops ++ [o]) ∧
      Call.deletions ((s₀.run ops).calls o) = [1] ∧
      (s₀.run (ops ++ [o])).ledger.recorded "a" .incoming =
        (s₀.run ops).ledger.recorded "a" .incoming ∧
      (s₀.run ops).ledger.recorded "a" .incoming = [Rule.blank] := by
  intro s₀ forward ops o
  have hs : s₀.Created := newborn_created (.start fun _ _ _ => none) rfl
  have h : s₀.Smooth (fun _ => .incoming) (ops ++ [o]) :=
    ⟨hs, by simp [ops, o, Operation.Proper, Record.plain], by decide⟩
  have hloses : ¬(s₀.run ops).ledger.OnlyLoses (.plain "b" 5 .incoming) [Rule.blank] := by decide
  obtain ⟨n, hrebuilds⟩ := (apply_disturbs_least h).2.2.1 hloses
  have hfront := hrebuilds.front ⟨.plain "a" 3 .incoming, [Rule.blank]⟩ (by decide)
  refine ⟨h, by decide, ?_, by decide⟩
  dsimp only [o]
  exact hfront.1

end Site

end PodFirewall
