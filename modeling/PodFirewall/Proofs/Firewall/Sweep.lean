import Mathlib.Data.List.Perm.Basic
import PodFirewall.Proofs.Firewall.Runs

/-!
The deletions of a log, made over. A log says of a deletion at which place it was
tried and whether it was done. Made over on what a chain held before, the
deletions tell which rules went, and which rules those that failed were about,
although the places change all the while.

`Site.Follows` says that chains and ledger are what the calls since an earlier
state made of a layout. All functions that only take rules out keep it, and the
lemmas on them say which entries they try to delete.
-/

namespace PodFirewall

/-- A list while deletions in it are made over. What came last stands first in
what is gone and in what failed. -/
structure Sweep (α : Type) where
  rest : List α
  gone : List α
  failed : List α

namespace Sweep

variable {α β : Type} {l : List α} {t : Sweep α}

def start (l : List α) : Sweep α := ⟨l, [], []⟩

def attempt (t : Sweep α) (id : Nat) (done : Bool) : Sweep α :=
  match t.rest[id]? with
  | none => t
  | some x =>
    if done then { t with rest := t.rest.eraseIdx id, gone := x :: t.gone }
    else { t with failed := x :: t.failed }

def see (name : String) (c : Chain) (e : LogEntry) (t : Sweep α) : Sweep α :=
  match e.call with
  | .delete c' id => if e.firewall = name ∧ c' = c then t.attempt id e.done else t
  | _ => t

/-- The deletions of a log made over, which has the last call first. -/
def replay (name : String) (c : Chain) (l : List α) (log : List LogEntry) : Sweep α :=
  log.foldr (see name c) (start l)

def tried (t : Sweep α) : List α := t.gone ++ t.failed

def map (f : α → β) (t : Sweep α) : Sweep β := ⟨t.rest.map f, t.gone.map f, t.failed.map f⟩

@[simp] theorem tried_map (f : α → β) (t : Sweep α) : (t.map f).tried = t.tried.map f :=
  List.map_append.symm

/-! ### One deletion -/

theorem rest_attempt (t : Sweep α) (id : Nat) (done : Bool) :
    (t.attempt id done).rest = if done then t.rest.eraseIdx id else t.rest := by
  unfold attempt
  split
  · rename_i hnone
    rw [List.eraseIdx_of_length_le (List.getElem?_eq_none_iff.1 hnone), ite_self]
  · split <;> rfl

theorem getElem?_attempt_of_lt (t : Sweep α) {i id : Nat} (done : Bool) (h : i < id) :
    (t.attempt id done).rest[i]? = t.rest[i]? := by
  rw [rest_attempt]
  split
  · exact List.getElem?_eraseIdx_of_lt h
  · rfl

theorem tried_attempt (t : Sweep α) (id : Nat) (done : Bool) :
    (t.attempt id done).tried.Perm (t.rest[id]?.toList ++ t.tried) := by
  unfold attempt
  split
  · rename_i hnone
    rw [hnone]
    exact .refl _
  · rename_i x hx
    rw [hx]
    split
    · exact .refl _
    · exact List.perm_middle

def found (t : Sweep α) (rules : List Rule) : List α := rules.filterMap fun r => t.rest[r.id]?

/-- A deletion leaves the places in front of it alone. -/
theorem tried_attempt_found (t : Sweep α) {r : Rule} {rules : List Rule}
    (h : ∀ r' ∈ rules, r'.id < r.id) (done : Bool) :
    ((t.attempt r.id done).found rules ++ (t.attempt r.id done).tried).Perm
      (t.found (r :: rules) ++ t.tried) := by
  have hsame : (t.attempt r.id done).found rules = t.found rules :=
    List.filterMap_congr fun r' hr' => getElem?_attempt_of_lt t done (h r' hr')
  have hfirst : t.found (r :: rules) = t.rest[r.id]?.toList ++ t.found rules := by
    rw [found, List.filterMap_cons]
    cases t.rest[r.id]? <;> rfl
  rw [hsame, hfirst]
  have happend := (tried_attempt t r.id done).append_left (t.found rules)
  rw [← List.append_assoc] at happend
  exact happend.trans (List.perm_append_comm.append_right _)

theorem attempt_map (f : α → β) (t : Sweep α) (id : Nat) (done : Bool) :
    (t.map f).attempt id done = (t.attempt id done).map f := by
  unfold attempt
  simp only [map, List.getElem?_map]
  cases t.rest[id]? with
  | none => rfl
  | some x => cases done <;> simp [List.eraseIdx_map]

theorem see_map (f : α → β) (name : String) (c : Chain) (e : LogEntry) (t : Sweep α) :
    see name c e (t.map f) = (see name c e t).map f := by
  unfold see
  split
  · split
    · exact attempt_map f t _ _
    · rfl
  · rfl

/-- The same deletions are made over on the names and the rules of a chain. -/
theorem replay_map (f : α → β) (name : String) (c : Chain) (l : List α) (log : List LogEntry) :
    replay name c (l.map f) log = (replay name c l log).map f := by
  induction log with
  | nil => rfl
  | cons e log ih => exact (congrArg (see name c e) ih).trans (see_map f name c e _)

/-- If no deletion in the log failed, there is none that failed. -/
theorem failed_replay (name : String) (c : Chain) (l : List α) {log : List LogEntry}
    (h : ∀ e ∈ log, e.call.deletes = true → e.done = true) :
    (replay name c l log).failed = [] := by
  induction log with
  | nil => rfl
  | cons e log ih =>
    obtain ⟨he, hlog⟩ := List.forall_mem_cons.1 h
    have hrest := ih hlog
    simp only [replay, List.foldr_cons, see] at hrest ⊢
    split
    · rename_i hdelete
      have hdone : e.done = true := he (by rw [hdelete]; rfl)
      split
      · rw [hdone, attempt]
        split <;> exact hrest
      · exact hrest
    · exact hrest

/-! ### What is left of a list -/

structure Parts (l : List α) (t : Sweep α) : Prop where
  sublist : t.rest.Sublist l
  perm : (t.rest ++ t.gone).Perm l

theorem Parts.attempt (h : Parts l t) (id : Nat) (done : Bool) : Parts l (t.attempt id done) := by
  unfold Sweep.attempt
  split
  · exact h
  · rename_i x hx
    split
    · obtain ⟨hlt, rfl⟩ := List.getElem?_eq_some_iff.1 hx
      refine ⟨(List.eraseIdx_sublist _ _).trans h.sublist, .trans ?_ h.perm⟩
      have hout : (t.rest[id] :: t.rest.eraseIdx id).Perm t.rest :=
        List.getElem_cons_eraseIdx_perm hlt
      exact List.perm_middle.trans (hout.append_right t.gone)
    · exact ⟨h.sublist, h.perm⟩

theorem parts_replay (name : String) (c : Chain) (l : List α) (log : List LogEntry) :
    Parts l (replay name c l log) := by
  induction log with
  | nil => exact ⟨.refl l, by simp [replay, start]⟩
  | cons e log ih =>
    simp only [replay, List.foldr_cons, see] at ih ⊢
    split
    · split
      · exact ih.attempt _ _
      · exact ih
    · exact ih

theorem Parts.map (h : Parts l t) (f : α → β) : Parts (l.map f) (t.map f) :=
  ⟨h.sublist.map f, by simpa [Sweep.map] using h.perm.map f⟩

/-- Elements of which none is gone are left in their order. -/
theorem Parts.filter_eq (h : Parts l t) {p : α → Bool} (hp : ∀ x ∈ t.gone, p x = false) :
    t.rest.filter p = l.filter p := by
  have hgone : t.gone.filter p = [] := List.filter_eq_nil_iff.2 fun x hx => by simp [hp x hx]
  refine (h.sublist.filter p).eq_of_length ?_
  have hperm := h.perm.filter p
  rw [List.filter_append, hgone, List.append_nil] at hperm
  exact hperm.length_eq

/-- In a list without repetition, the elements that are not gone are left. -/
theorem Parts.rest_eq [DecidableEq α] (h : Parts l t) (hl : l.Nodup) :
    t.rest = l.filter (· ∉ t.gone) := by
  have hapart : ∀ x ∈ t.rest, x ∉ t.gone :=
    fun x hx hx' => (List.nodup_append.1 (h.perm.nodup_iff.2 hl)).2.2 x hx x hx' rfl
  rw [← h.filter_eq fun x hx => by simp [hx], List.filter_eq_self.2 fun x hx => by
    simp [hapart x hx]]

end Sweep

namespace Layout

/-- The entries of a part of a layout stand at the ids of its rules. -/
theorem filterMap_numberedFrom (V U : Layout) (q : Test) :
    ((((numberedFrom V.length U).filter (passes q)).map (·.2)).filterMap fun r =>
      (V ++ U)[r.id]?) = U.filter (passes q) := by
  induction U generalizing V with
  | nil => rfl
  | cons e rest ih =>
    have hrest := ih (V ++ [e])
    rw [List.length_append, List.length_singleton, List.append_assoc,
      List.singleton_append] at hrest
    simp only [numberedFrom, List.filter_cons, passes_renumbered]
    split
    · rw [List.map_cons, List.filterMap_cons, hrest]
      simp
    · exact hrest

theorem filterMap_chosen (U : Layout) (q : Test) :
    ((U.chosen q).filterMap fun r => U[r.id]?) = U.filter (passes q) :=
  filterMap_numberedFrom [] U q

/-- The entries of a name and those of other names make up the entries of all of
these names. -/
theorem perm_filter_concat (U : Layout) {names : List String} {name : String}
    (h : name ∉ names) :
    (U.filter (passes (ofName name)) ++ U.filter (passes (ofNames names))).Perm
      (U.filter (passes (ofNames (names ++ [name])))) := by
  have hmine : (U.filter (passes (ofNames (names ++ [name])))).filter (passes (ofName name)) =
      U.filter (passes (ofName name)) := by
    rw [List.filter_filter]
    refine List.filter_congr fun e _ => ?_
    cases hn : e.1 <;> simp [hn]
    rintro rfl
    simp
  have hothers : ((U.filter (passes (ofNames (names ++ [name])))).filter
      fun e => !passes (ofName name) e) = U.filter (passes (ofNames names)) := by
    rw [List.filter_filter]
    refine List.filter_congr fun e _ => ?_
    cases hn : e.1 with
    | none => simp [hn]
    | some name' => by_cases hname : name' = name <;> simp [hn, hname, h]
  rw [← hmine, ← hothers]
  exact List.filter_append_perm _ _

end Layout

namespace Site

def lefts (t : PerDirection (Sweep (Option String × Rule))) : PerDirection Layout :=
  ⟨t.incoming.rest, t.outgoing.rest⟩

@[simp] theorem get_lefts (t : PerDirection (Sweep (Option String × Rule))) (d : Direction) :
    (lefts t).get d = (t.get d).rest := by cases d <;> rfl

/-- Whether chains and ledger are what the calls since an earlier state made of
layouts. -/
structure Follows (s₀ : Site) (U : PerDirection Layout) (s : Site)
    (t : PerDirection (Sweep (Option String × Rule))) : Prop where
  name : s.name = s₀.name
  calls : ∃ calls, s.backend.log = calls ++ s₀.backend.log ∧
    ∀ d, t.get d = Sweep.replay s₀.name d.chain (U.get d) calls
  laid : s.Laid (lefts t)

namespace Follows

variable {s₀ s : Site} {U : PerDirection Layout} {t : PerDirection (Sweep (Option String × Rule))}

/-- Before the first call. -/
theorem start (hU : s.Laid U) :
    ∃ t, Follows s U s t ∧ ∀ d, (t.get d).tried = [] :=
  ⟨⟨.start U.incoming, .start U.outgoing⟩, ⟨rfl, ⟨[], rfl, fun d => by cases d <;> rfl⟩, hU⟩,
    fun d => by cases d <;> rfl⟩

theorem parts (h : Follows s₀ U s t) (d : Direction) : (t.get d).Parts (U.get d) := by
  obtain ⟨calls, -, ht⟩ := h.calls
  rw [ht]
  exact Sweep.parts_replay ..

/-- One more call in the log. -/
theorem see (h : Follows s₀ U s t) {s' : Site} {e : LogEntry}
    {t' : PerDirection (Sweep (Option String × Rule))} (hname : s'.name = s.name)
    (hlog : s'.backend.log = e :: s.backend.log)
    (ht : ∀ d, t'.get d = Sweep.see s₀.name d.chain e (t.get d)) (hlaid : s'.Laid (lefts t')) :
    Follows s₀ U s' t' := by
  obtain ⟨calls, hcalls, hreplay⟩ := h.calls
  refine ⟨hname.trans h.name, ⟨e :: calls, by rw [hlog, hcalls]; rfl, fun d => ?_⟩, hlaid⟩
  rw [ht, hreplay]
  rfl

/-- A call that edits no rules changes nothing. -/
theorem perform (h : Follows s₀ U s t) {call : Call} {r : Except BackendError Unit} {b : Backend}
    (hperform : s.backend.perform s.name call = (r, b)) (hcall : call ≠ .destroy)
    (hedit : call.editsRules = false) : Follows s₀ U { s with backend := b } t := by
  refine h.see rfl (Backend.log_perform hperform) (fun d => ?_)
    ⟨h.laid.holds.perform hperform hcall hedit, h.laid.records⟩
  cases call <;> first | rfl | cases hedit

/-- A deletion, done or not, is one in the layout. -/
theorem delete (h : Follows s₀ U s t) {d : Direction} {id : Nat} {r : Except BackendError Unit}
    {b : Backend} (hperform : s.backend.perform s.name (.delete d.chain id) = (r, b)) :
    Follows s₀ U
      { s with
        backend := b
        ledger := if r.toBool then s.ledger.deleted d id else s.ledger }
      (t.modify d fun t => t.attempt id r.toBool) := by
  refine h.see rfl (Backend.log_perform hperform) (fun d' => ?_) ?_
  · by_cases hd : d' = d
    · subst hd
      simp [Sweep.see, h.name]
    · have hother : ¬(s.name = s₀.name ∧ d.chain = d'.chain) :=
        fun hsame => Direction.chain_ne hd hsame.2.symm
      rw [PerDirection.get_modify_of_ne _ _ hd]
      exact (if_neg hother).symm
  · have hlefts : lefts (t.modify d fun t => t.attempt id r.toBool) =
        if r.toBool then (lefts t).set d (((lefts t).get d).eraseIdx id) else lefts t := by
      refine PerDirection.ext_get fun d' => ?_
      rw [get_lefts]
      by_cases hd : d' = d
      · subst hd
        rw [PerDirection.get_modify_self, Sweep.rest_attempt]
        split <;> simp
      · rw [PerDirection.get_modify_of_ne _ _ hd]
        split
        · rw [PerDirection.get_set_of_ne _ _ hd, get_lefts]
        · rw [get_lefts]
    rw [hlefts]
    rcases r with e | ⟨⟨⟩⟩
    · exact h.laid.failed hperform
    · exact h.laid.delete hperform

/-- Deleting from the last to the first tries just what stands at the places
asked for. -/
theorem deleteEach (h : Follows s₀ U s t) (d : Direction) {rules : List Rule}
    (hdown : rules.Pairwise fun a b => b.id < a.id) (out : Deletion) :
    ∃ t', Follows s₀ U (Site.deleteEach d rules out s).2 (t.set d t') ∧
      t'.tried.Perm ((t.get d).found rules ++ (t.get d).tried) := by
  induction rules generalizing out s t with
  | nil => exact ⟨t.get d, by simpa [Site.deleteEach] using h, .refl _⟩
  | cons r rest ih =>
    obtain ⟨hlt, hrest⟩ := List.pairwise_cons.1 hdown
    unfold Site.deleteEach
    split <;> rename_i hperform
    all_goals
      obtain ⟨t', hfollows, htried⟩ := ih (h.delete hperform) hrest _
      rw [PerDirection.modify, PerDirection.set_set] at hfollows
      rw [PerDirection.get_modify_self] at htried
      exact ⟨t', hfollows, htried.trans (Sweep.tried_attempt_found _ hlt _)⟩

/-- Removing the rules of a test tries just the entries of the test. -/
theorem remove (h : Follows s₀ U s t) (d : Direction) (q : Layout.Test) :
    ∃ t', Follows s₀ U (s.remove d (Layout.chosen (t.get d).rest q)).2 (t.set d t') ∧
      t'.tried.Perm ((t.get d).rest.filter (Layout.passes q) ++ (t.get d).tried) := by
  unfold Site.remove
  split
  · rename_i hnone
    rw [List.isEmpty_iff, Layout.chosen_eq_nil_iff] at hnone
    exact ⟨t.get d, by simpa using h, by simp [hnone]⟩
  · have hup := Layout.pairwise_chosen (t.get d).rest q
    rw [Rule.sortDown_eq_reverse hup]
    obtain ⟨t', hfollows, htried⟩ := h.deleteEach d (List.pairwise_reverse.2 hup) ⟨[], false⟩
    rw [Sweep.found, List.filterMap_reverse, Layout.filterMap_chosen] at htried
    refine ⟨t', ?_, htried.trans ((List.reverse_perm _).append_right _)⟩
    split
    rename_i out s' hdeleted
    rw [hdeleted] at hfollows
    split
    · exact hfollows.perform (Eq.refl (s'.backend.perform s'.name (.commit d.chain))) nofun rfl
    · exact hfollows

/-- Ceasing a name tries just the entries of the name. -/
theorem ceaseRules (h : Follows s₀ U s t) (name : String) :
    ∃ t', Follows s₀ U (s.ceaseRules name).2 t' ∧
      ∀ d, (t'.get d).tried.Perm
        ((t.get d).rest.filter (Layout.passes (Layout.ofName name)) ++ (t.get d).tried) := by
  have hchosen (d : Direction) := h.laid.records.recorded name d
  simp only [get_lefts] at hchosen
  unfold Site.ceaseRules
  split
  · rename_i hnone
    refine ⟨t, h, fun d => ?_⟩
    have hempty := (hchosen d).symm.trans (Ledger.recorded_eq_nil hnone d)
    rw [(Layout.chosen_eq_nil_iff _ _).1 hempty]
    exact .refl _
  · rename_i known hknown
    have hrecorded (d : Direction) :
        known.get d = Layout.chosen (t.get d).rest (Layout.ofName name) := by
      rw [← hchosen, Ledger.recorded_eq hknown]
    obtain ⟨t₁, hin, htried₁⟩ := h.remove .incoming (Layout.ofName name)
    obtain ⟨t₂, hout, htried₂⟩ := hin.remove .outgoing (Layout.ofName name)
    have hother : (t.set .incoming t₁).get .outgoing = t.get .outgoing := rfl
    rw [hother, ← hrecorded, ← hrecorded] at hout
    rw [hother] at htried₂
    refine ⟨_, hout, fun d => ?_⟩
    cases d
    · exact htried₁
    · exact htried₂

/-- Ceasing names tries just their entries, each of them once. -/
theorem ceaseEach (h : Follows s₀ U s t) {past names : List String} (hnodup : (past ++ names).Nodup)
    (hpast : ∀ d, (t.get d).tried.Perm
      ((U.get d).filter (Layout.passes (Layout.ofNames past)))) (out : Outcome) :
    ∃ t', Follows s₀ U (Site.ceaseEach names out s).2 t' ∧
      ∀ d, (t'.get d).tried.Perm
        ((U.get d).filter (Layout.passes (Layout.ofNames (past ++ names)))) := by
  induction names generalizing past out s t with
  | nil => exact ⟨t, h, by simpa using hpast⟩
  | cons name rest ih =>
    have hnew : name ∉ past := fun hmem =>
      (List.nodup_append.1 hnodup).2.2 name hmem name List.mem_cons_self rfl
    have hsplit : past ++ name :: rest = (past ++ [name]) ++ rest := by simp
    obtain ⟨t', ht', htried⟩ := h.ceaseRules name
    rw [hsplit] at hnodup ⊢
    refine ih ht' hnodup (fun d => ?_) _
    -- no entry of the name was tried before, so all of them are still there
    have hrest : (t.get d).rest.filter (Layout.passes (Layout.ofName name)) =
        (U.get d).filter (Layout.passes (Layout.ofName name)) := by
      refine (h.parts d).filter_eq fun e he => ?_
      have howner := (List.mem_filter.1 ((hpast d).subset (List.mem_append_left _ he))).2
      rw [Layout.passes_ofNames] at howner
      rw [Layout.passes_ofName, beq_eq_false_iff_ne]
      intro hname
      rw [hname] at howner
      exact hnew (by simpa using howner)
    have hall := (htried d).trans ((hpast d).append_left _)
    rw [hrest] at hall
    exact hall.trans (Layout.perm_filter_concat (U.get d) hnew)

end Follows

end Site

end PodFirewall
