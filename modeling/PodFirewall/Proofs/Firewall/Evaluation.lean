import Mathlib.Data.List.Basic
import Mathlib.Data.List.TakeWhile
import PodFirewall.Proofs.Firewall.Creation
import PodFirewall.Proofs.Policy.Insertion

/-!
The applied records and their order of evaluation. Every operation that finds
the firewall leaves the applied records sorted by their keys, and they are the
records that the operations so far ask for: each with the rules given last, none
that was ceased. Whether calls fail makes no difference for this.
-/

namespace PodFirewall

def InOrder (entries : List Applied) : Prop :=
  entries.Pairwise fun a b => a.record.orderKey.le b.record.orderKey = true

def Distinct (entries : List Applied) : Prop :=
  entries.Pairwise fun a b => a.record.name ≠ b.record.name

namespace Site

/-! ### Placing a record -/

theorem findIdx?_split {α : Type} {p : α → Bool} {l : List α} {i : Nat}
    (h : l.findIdx? p = some i) :
    ∃ pre x post, l = pre ++ x :: post ∧ pre.length = i ∧ p x = true ∧ ∀ y ∈ pre, p y = false := by
  induction l generalizing i with
  | nil => cases h
  | cons a rest ih =>
    rw [List.findIdx?_cons] at h
    split at h
    · rename_i ha
      obtain rfl := Option.some.inj h
      exact ⟨[], a, rest, rfl, rfl, ha, by simp⟩
    · rename_i ha
      obtain ⟨j, hj, rfl⟩ := Option.map_eq_some_iff.1 h
      obtain ⟨pre, x, post, rfl, rfl, hx, hpre⟩ := ih hj
      refine ⟨a :: pre, x, post, rfl, rfl, hx, ?_⟩
      exact List.forall_mem_cons.2 ⟨by simpa using ha, hpre⟩

def inserted (x : Applied) (rest : List Applied) : List Applied :=
  rest.takeWhile (fun a => a.record.orderKey.le x.record.orderKey) ++
    x :: rest.dropWhile fun a => a.record.orderKey.le x.record.orderKey

theorem offset_map (key : OrderKey) (rest : List Applied) :
    key.offset (rest.map (·.record.orderKey)) =
      (rest.takeWhile fun a => a.record.orderKey.le key).length := by
  rw [OrderKey.offset, List.takeWhile_map, List.length_map]
  rfl

theorem insertIdx_offset (x : Applied) (rest : List Applied) :
    rest.insertIdx (x.record.orderKey.offset (rest.map (·.record.orderKey))) x =
      inserted x rest := by
  rw [offset_map]
  exact insertIdx_length_takeWhile _ _ _

theorem inserted_perm (x : Applied) (rest : List Applied) : (inserted x rest).Perm (x :: rest) := by
  have hmiddle : (inserted x rest).Perm
      (x :: (rest.takeWhile (fun a => a.record.orderKey.le x.record.orderKey) ++
        rest.dropWhile fun a => a.record.orderKey.le x.record.orderKey)) := List.perm_middle
  rw [List.takeWhile_append_dropWhile] at hmiddle
  exact hmiddle

/-- The keys of the records are put in order as keys are. -/
theorem map_orderKey_inserted (x : Applied) (rest : List Applied) :
    (inserted x rest).map (·.record.orderKey) =
      x.record.orderKey.insert (rest.map (·.record.orderKey)) := by
  rw [OrderKey.insert_eq, inserted, List.takeWhile_map, List.dropWhile_map, List.map_append,
    List.map_cons]
  rfl

theorem inserted_inOrder {x : Applied} {rest : List Applied} (h : InOrder rest) :
    InOrder (inserted x rest) := by
  have hkeys : OrderKey.Ascending (rest.map (·.record.orderKey)) := List.pairwise_map.2 h
  have hinserted := hkeys.insert x.record.orderKey
  rw [← map_orderKey_inserted] at hinserted
  exact List.pairwise_map.1 hinserted

theorem filter_ne_of_split {pre post : List Applied} {x : Applied}
    (h : Distinct (pre ++ x :: post)) :
    ((pre ++ x :: post).filter fun a => a.record.name != x.record.name) = pre ++ post := by
  obtain ⟨-, hx, hpre⟩ := List.pairwise_append.1 h
  have hkeep : (pre.filter fun a => a.record.name != x.record.name) = pre :=
    List.filter_eq_self.2 fun a ha => by simpa using hpre a ha x List.mem_cons_self
  have hkeep' : (post.filter fun a => a.record.name != x.record.name) = post :=
    List.filter_eq_self.2 fun a ha => by
      simpa using Ne.symm ((List.pairwise_cons.1 hx).1 a ha)
  rw [List.filter_append, List.filter_cons_of_neg (by simp), hkeep, hkeep']

/-- Without the entry of a name that occurs once, no entry of the name is
left. -/
theorem eraseIdx_eq_filter {entries : List Applied} (h : Distinct entries) {name : String} {i : Nat}
    (hi : entries.findIdx? (fun a => a.record.name == name) = some i) :
    entries.eraseIdx i = entries.filter fun a => a.record.name != name := by
  obtain ⟨pre, x, post, rfl, rfl, hx, -⟩ := findIdx?_split hi
  rw [← beq_iff_eq.1 hx, filter_ne_of_split h]
  simp [List.eraseIdx_append_of_length_le]

theorem place_entries {entries : List Applied} (h : Distinct entries) (record : Record)
    (rules : List Rule) :
    (place entries record rules).entries =
      inserted ⟨record, rules⟩ (entries.filter fun a => a.record.name != record.name) := by
  unfold place
  split
  · rename_i i hi
    rw [← eraseIdx_eq_filter h hi]
    exact insertIdx_offset ⟨record, rules⟩ _
  · rename_i hi
    have hkeep : (entries.filter fun a => a.record.name != record.name) = entries :=
      List.filter_eq_self.2 fun a ha => by
        simpa using List.findIdx?_eq_none_iff.1 hi a ha
    rw [hkeep]
    exact insertIdx_offset ⟨record, rules⟩ _

theorem take_inserted {n : Nat} (x : Applied) (rest : List Applied)
    (h : n ≤ x.record.orderKey.offset (rest.map (·.record.orderKey))) :
    (inserted x rest).take n = rest.take n := by
  rw [offset_map] at h
  rw [inserted, List.take_append_of_le_length h]
  conv_rhs => rw [← List.takeWhile_append_dropWhile
    (p := fun a : Applied => a.record.orderKey.le x.record.orderKey) (l := rest)]
  rw [List.take_append_of_le_length h]

/-- In front of the place from which on the chain is built anew, the records are
those that were there. -/
theorem take_place (entries : List Applied) (record : Record) (rules : List Rule) {n : Nat}
    (h : n ≤ (place entries record rules).start) :
    (place entries record rules).entries.take n = entries.take n := by
  unfold place at h ⊢
  split at h
  · rename_i i hi
    -- neither taking the record out nor putting it in touches what is in front of both places
    obtain ⟨pre, x, post, rfl, rfl, -, -⟩ := findIdx?_split hi
    dsimp only at h ⊢
    have hpre : n ≤ pre.length := Nat.le_trans h (Nat.min_le_left _ _)
    rw [insertIdx_offset ⟨record, rules⟩,
      take_inserted ⟨record, rules⟩ _ (Nat.le_trans h (Nat.min_le_right _ _))]
    simp [List.eraseIdx_append_of_length_le, List.take_append_of_le_length hpre]
  · dsimp only at h ⊢
    rw [insertIdx_offset ⟨record, rules⟩, take_inserted ⟨record, rules⟩ _ h]

end Site

/-! ### What operations ask for -/

namespace Operation

/-- The records that are asked for after an operation, the last one applied at
the end. -/
def demand (wanted : List Applied) : Operation → List Applied
  | .apply record rules =>
    (wanted.filter fun a => a.record.name != record.name) ++ [⟨record, rules⟩]
  | .cease name => wanted.filter fun a => a.record.name != name
  | .ceaseParent dialect parent =>
    wanted.filter fun a => !Record.belongsTo dialect parent a.record.name

def demands (ops : List Operation) : List Applied := ops.foldl demand []

/-- Whether an operation uses a name for the direction that the name stands for,
and gives no rule twice. -/
def Proper (dir : String → Direction) : Operation → Prop
  | .apply record rules =>
    record.direction = dir record.name ∧ rules.Pairwise fun a b => a.sameMatch b = false
  | _ => True

def appliesTo (d : Direction) : Operation → Prop
  | .apply record _ => record.direction = d
  | _ => False

end Operation

structure Sound (dir : String → Direction) (wanted : List Applied) : Prop where
  distinct : Distinct wanted
  direction : ∀ a ∈ wanted, a.record.direction = dir a.record.name
  noTwins : ∀ a ∈ wanted, a.rules.Pairwise fun r r' => r.sameMatch r' = false

namespace Sound

variable {dir : String → Direction} {wanted : List Applied}

theorem filter (h : Sound dir wanted) (p : Applied → Bool) : Sound dir (wanted.filter p) where
  distinct := h.distinct.filter p
  direction a ha := h.direction a (List.mem_filter.1 ha).1
  noTwins a ha := h.noTwins a (List.mem_filter.1 ha).1

theorem demand (h : Sound dir wanted) {o : Operation} (ho : o.Proper dir) :
    Sound dir (o.demand wanted) := by
  cases o with
  | cease name => exact h.filter _
  | ceaseParent dialect parent => exact h.filter _
  | apply record rules =>
    obtain ⟨hdir, htwins⟩ := ho
    have hrest := h.filter fun a => a.record.name != record.name
    refine ⟨?_, fun a ha => ?_, fun a ha => ?_⟩
    · refine List.pairwise_append.2
        ⟨hrest.distinct, List.pairwise_singleton _ _, fun a ha b hb => ?_⟩
      obtain rfl := List.mem_singleton.1 hb
      simpa using (List.mem_filter.1 ha).2
    · rcases List.mem_append.1 ha with ha | ha
      · exact hrest.direction a ha
      · obtain rfl := List.mem_singleton.1 ha
        exact hdir
    · rcases List.mem_append.1 ha with ha | ha
      · exact hrest.noTwins a ha
      · obtain rfl := List.mem_singleton.1 ha
        exact htwins

end Sound

/-- Whether the applied records are those asked for, in the order of
evaluation. -/
structure Ledger.Meets (l : Ledger) (wanted : List Applied) : Prop where
  inOrder : ∀ d, InOrder (l.applied.get d)
  perm : ∀ d, (l.applied.get d).Perm (wanted.filter fun a => a.record.direction == d)

namespace Ledger.Meets

variable {l : Ledger} {wanted : List Applied} {dir : String → Direction}

theorem congr {l' : Ledger} (h : l.Meets wanted) (happlied : l'.applied = l.applied) :
    l'.Meets wanted := by
  refine ⟨fun d => ?_, fun d => ?_⟩ <;> rw [happlied]
  · exact h.inOrder d
  · exact h.perm d

theorem distinct (h : l.Meets wanted) (hsound : Sound dir wanted) (d : Direction) :
    Distinct (l.applied.get d) :=
  (h.perm d).symm.pairwise (hsound.distinct.filter _) fun hne => Ne.symm hne

theorem mem_wanted (h : l.Meets wanted) {d : Direction} {a : Applied} (ha : a ∈ l.applied.get d) :
    a ∈ wanted ∧ a.record.direction = d := by
  have hmem := List.mem_filter.1 ((h.perm d).mem_iff.1 ha)
  exact ⟨hmem.1, beq_iff_eq.1 hmem.2⟩

theorem retire (h : l.Meets wanted) (p : String → Bool) :
    (l.retire p).Meets (wanted.filter fun a => !p a.record.name) := by
  refine ⟨fun d => ?_, fun d => ?_⟩
  · rw [Ledger.retire, PerDirection.get_map]
    exact (h.inOrder d).filter _
  · rw [Ledger.retire, PerDirection.get_map, List.filter_comm]
    exact (h.perm d).filter _

/-- In its direction an apply asks for its record next to those of other
names. -/
theorem filter_demand_self (wanted : List Applied) (record : Record) (rules : List Rule) :
    (((Operation.apply record rules).demand wanted).filter fun a =>
        a.record.direction == record.direction) =
      ((wanted.filter fun a => a.record.direction == record.direction).filter fun a =>
        a.record.name != record.name) ++ [⟨record, rules⟩] := by
  rw [Operation.demand, List.filter_append, List.filter_cons_of_pos (by simp), List.filter_nil,
    List.filter_comm]

/-- In the other direction nothing is asked for. -/
theorem filter_demand_of_ne (hsound : Sound dir wanted) {record : Record}
    (hdir : record.direction = dir record.name) (rules : List Rule) {d : Direction}
    (hd : d ≠ record.direction) :
    (((Operation.apply record rules).demand wanted).filter fun a => a.record.direction == d) =
      wanted.filter fun a => a.record.direction == d := by
  have hkeep : ((wanted.filter fun a => a.record.direction == d).filter fun a =>
      a.record.name != record.name) = wanted.filter fun a => a.record.direction == d := by
    refine List.filter_eq_self.2 fun a ha => ?_
    obtain ⟨hmem, had⟩ := List.mem_filter.1 ha
    rw [bne_iff_ne]
    intro hname
    -- a name has one direction, so no record of this name is in the other one
    have hsame := hsound.direction a hmem
    rw [hname, ← hdir, beq_iff_eq.1 had] at hsame
    exact hd hsame
  rw [Operation.demand, List.filter_append, List.filter_cons_of_neg (by simpa using Ne.symm hd),
    List.filter_nil, List.append_nil, List.filter_comm, hkeep]

/-- A record that is placed replaces any other one of its name. -/
theorem place (h : l.Meets wanted) (hsound : Sound dir wanted) {record : Record}
    (hdir : record.direction = dir record.name) (rules : List Rule) :
    Ledger.Meets { l with
        applied := l.applied.set record.direction
          (Site.place (l.applied.get record.direction) record rules).entries }
      ((Operation.apply record rules).demand wanted) := by
  have hplace := Site.place_entries (h.distinct hsound record.direction) record rules
  refine ⟨fun d => ?_, fun d => ?_⟩ <;> by_cases hd : d = record.direction
  · subst hd
    rw [PerDirection.get_set_self, hplace]
    exact Site.inserted_inOrder ((h.inOrder _).filter _)
  · rw [PerDirection.get_set_of_ne _ _ hd]
    exact h.inOrder d
  · subst hd
    rw [PerDirection.get_set_self, hplace, filter_demand_self]
    have hrest := (h.perm record.direction).filter fun a => a.record.name != record.name
    exact (Site.inserted_perm _ _).trans
      ((hrest.cons _).trans (List.perm_append_singleton _ _).symm)
  · rw [PerDirection.get_set_of_ne _ _ hd, filter_demand_of_ne hsound hdir rules hd]
    exact h.perm d

end Ledger.Meets

namespace Site

/-- What it takes to shrink a record: it is applied under the same key, with no
rules missing, and all records are in sync. -/
theorem shrinkable_cases {l : Ledger} {record : Record} {rules : List Rule} {i : Nat}
    (h : shrinkable? l record rules = some i) :
    ∃ pre known post, l.applied.get record.direction = pre ++ known :: post ∧ pre.length = i ∧
      known.record.name = record.name ∧ known.record.orderKey = record.orderKey ∧
      Ledger.isSubsequence rules known.rules = true ∧
      l.firstOutOfSync record.direction = none := by
  unfold shrinkable? at h
  simp only [Option.bind_eq_bind, Option.bind_eq_some_iff] at h
  obtain ⟨j, hj, known, hknown, h⟩ := h
  obtain ⟨pre, x, post, hsplit, rfl, hx, -⟩ := findIdx?_split hj
  rw [hsplit, List.getElem?_append_right (Nat.le_refl _), Nat.sub_self,
    List.getElem?_cons_zero, Option.some.injEq] at hknown
  subst hknown
  split at h
  · rename_i hcond
    simp only [Bool.and_eq_true, beq_iff_eq, Option.isNone_iff_eq_none] at hcond
    exact ⟨pre, x, post, hsplit, Option.some.inj h, beq_iff_eq.1 hx, hcond.1.1, hcond.1.2, hcond.2⟩
  · cases h

theorem set_split {α : Type} (pre : List α) (known x : α) (post : List α) :
    (pre ++ known :: post).set pre.length x = pre ++ x :: post := by
  induction pre with
  | nil => rfl
  | cons a pre ih => simp

end Site

namespace Ledger.Meets

variable {l : Ledger} {wanted : List Applied} {dir : String → Direction}

/-- A record that is shrunk keeps its place. -/
theorem shrink (h : l.Meets wanted) (hsound : Sound dir wanted) {record : Record}
    (hdir : record.direction = dir record.name) {rules : List Rule} {i : Nat}
    (hi : Site.shrinkable? l record rules = some i) :
    Ledger.Meets { l with
        applied := l.applied.modify record.direction fun entries => entries.set i ⟨record, rules⟩ }
      ((Operation.apply record rules).demand wanted) := by
  obtain ⟨pre, known, post, hsplit, rfl, hname, hkey, -⟩ := Site.shrinkable_cases hi
  have hdistinct := h.distinct hsound record.direction
  have horder := h.inOrder record.direction
  have hperm := (h.perm record.direction).filter fun a => a.record.name != record.name
  rw [hsplit] at hdistinct horder hperm
  rw [← hname, Site.filter_ne_of_split hdistinct, hname] at hperm
  refine ⟨fun d => ?_, fun d => ?_⟩ <;> by_cases hd : d = record.direction
  · subst hd
    rw [PerDirection.get_modify_self, hsplit, Site.set_split]
    obtain ⟨hpre, hpost, hbetween⟩ := List.pairwise_append.1 horder
    obtain ⟨hknown, hpost⟩ := List.pairwise_cons.1 hpost
    refine List.pairwise_append.2 ⟨hpre, List.pairwise_cons.2 ⟨fun b hb => ?_, hpost⟩, ?_⟩
    · rw [← hkey]
      exact hknown b hb
    · intro a ha b hb
      rcases List.mem_cons.1 hb with rfl | hb
      · rw [← hkey]
        exact hbetween a ha known List.mem_cons_self
      · exact hbetween a ha b (List.mem_cons_of_mem _ hb)
  · rw [PerDirection.get_modify_of_ne _ _ hd]
    exact h.inOrder d
  · subst hd
    rw [PerDirection.get_modify_self, hsplit, Site.set_split, filter_demand_self]
    exact List.perm_middle.trans ((hperm.cons _).trans (List.perm_append_singleton _ _).symm)
  · rw [PerDirection.get_modify_of_ne _ _ hd, filter_demand_of_ne hsound hdir rules hd]
    exact h.perm d

end Ledger.Meets

namespace Site

def heard : Site → List Operation → List Operation
  | _, [] => []
  | s, o :: rest =>
    if s.checkAlive.1.toBool then o :: heard (s.step o).2 rest else heard (s.step o).2 rest

theorem meets_step {s : Site} {wanted : List Applied} {dir : String → Direction}
    (h : s.ledger.Meets wanted) (hsound : Sound dir wanted) {o : Operation} (ho : o.Proper dir) :
    (s.step o).2.ledger.Meets (if s.checkAlive.1.toBool then o.demand wanted else wanted) := by
  obtain ⟨b, -, ⟨e, hdead, hstep⟩ | ⟨halive, hheard⟩⟩ := step_cases s o
  · rw [hstep, hdead]
    exact h
  · rw [halive]
    rcases hheard with ⟨record, rules, i, rfl, hquiet, hstep⟩ | ⟨-, hstep⟩
    · rw [hstep]
      exact (h.shrink hsound ho.1 hquiet).congr (worked_shrink _ i record rules).applied
    · rw [hstep]
      have hwork : (work { s with backend := b } o).2.ledger.Meets (o.demand wanted) := by
        cases o with
        | apply record rules =>
          exact (h.place hsound ho.1 rules).congr (applied_work_apply _ record rules)
        | cease name => exact (h.retire (· == name)).congr (applied_work_cease _ name)
        | ceaseParent dialect parent =>
          exact (h.retire _).congr (applied_work_ceaseParent _ dialect parent)
      exact hwork.congr (tuned_updateDefaults _).applied

theorem sound_heard {wanted : List Applied} {dir : String → Direction} (h : Sound dir wanted)
    (s : Site) {o : Operation} (ho : o.Proper dir) :
    Sound dir (if s.checkAlive.1.toBool then o.demand wanted else wanted) := by
  split
  · exact h.demand ho
  · exact h

theorem meets_run {s : Site} {wanted : List Applied} {dir : String → Direction}
    (h : s.ledger.Meets wanted) (hsound : Sound dir wanted) {ops : List Operation}
    (hops : ∀ o ∈ ops, o.Proper dir) :
    (s.run ops).ledger.Meets ((heard s ops).foldl Operation.demand wanted) ∧
      Sound dir ((heard s ops).foldl Operation.demand wanted) := by
  induction ops generalizing s wanted with
  | nil => exact ⟨h, hsound⟩
  | cons o rest ih =>
    obtain ⟨ho, hrest⟩ := List.forall_mem_cons.1 hops
    have hrest' := ih (meets_step h hsound ho) (sound_heard hsound s ho) hrest
    rw [heard]
    split <;> rename_i halive
    · rw [if_pos halive] at hrest'
      exact hrest'
    · rw [if_neg halive] at hrest'
      exact hrest'

theorem Created.meets {s : Site} (hs : s.Created) : s.ledger.Meets [] := by
  obtain ⟨b, b', -, -, -, hledger⟩ := hs.cases
  rw [hledger]
  refine ⟨fun d => ?_, fun d => ?_⟩ <;> cases d
  · exact .nil
  · exact .nil
  · exact .refl _
  · exact .refl _

theorem sound_nil (dir : String → Direction) : Sound dir [] := ⟨.nil, by simp, by simp⟩

end Site

end PodFirewall
