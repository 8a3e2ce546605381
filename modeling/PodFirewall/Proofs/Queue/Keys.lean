import Mathlib.Data.List.Nodup
import PodFirewall.Queue.Basic

/-!
What the operations of a queue do with its keys: which keys are dirty, queued
and processed afterwards, whether the queue takes keys at all, and how often it
knows a key to have failed. The keys that can be handed out are always those
that are dirty and not processed.
-/

namespace PodFirewall.Queue

variable {κ : Type} [Ord κ] {q q' : Queue κ} {key key' : κ}

/-! ### The operations -/

section Operations

theorem done_eq (q : Queue κ) (key : κ) :
    q.done key =
      { q with
          processing := q.processing.erase key
          queued := if q.dirty.contains key then q.queued ++ [key] else q.queued } := by
  unfold Queue.done
  dsimp only
  split <;> rfl

variable [Std.TransOrd κ]

/-- A closed queue stays as it is. -/
theorem add_of_closed (hclosed : q.closed = true) (key : κ) : q.add key = q := by
  simp [add, hclosed]

/-- An open queue knows a key already, or takes it in. -/
theorem add_cases (hopen : q.closed = false) (key : κ) :
    q.dirty.contains key = true ∧ q.add key = q ∨
      q.dirty.contains key = false ∧ q.add key =
        { q with
            dirty := q.dirty.add key
            queued := if q.processing.contains key then q.queued else q.queued ++ [key] } := by
  rcases hknown : q.dirty.contains key with _ | _
  · refine .inr ⟨rfl, ?_⟩
    simp only [add, hopen, hknown, Bool.or_self, Bool.false_eq_true, if_false]
    split <;> rfl
  · exact .inl ⟨rfl, by simp [add, hknown]⟩

/-- Adding a key changes nothing but what is dirty and queued. -/
theorem add_eq (q : Queue κ) (key : κ) :
    ∃ dirty queued, q.add key = { q with dirty := dirty, queued := queued } := by
  unfold add
  split
  · exact ⟨q.dirty, q.queued, rfl⟩
  · dsimp only
    split <;> exact ⟨_, _, rfl⟩

theorem closed_add (q : Queue κ) (key : κ) : (q.add key).closed = q.closed := by
  obtain ⟨_, _, hadd⟩ := q.add_eq key
  rw [hadd]

theorem processing_add (q : Queue κ) (key : κ) : (q.add key).processing = q.processing := by
  obtain ⟨_, _, hadd⟩ := q.add_eq key
  rw [hadd]

theorem failuresOf_add (q : Queue κ) (key key' : κ) :
    (q.add key').failuresOf key = q.failuresOf key := by
  obtain ⟨_, _, hadd⟩ := q.add_eq key'
  rw [hadd]
  rfl

theorem get_of_nil (h : q.queued = []) : q.get = (if q.closed then .stop else .wait, q) := by
  simp only [get, h]

/-- The first key that is queued is handed out. -/
theorem get_of_cons {rest : List κ} (h : q.queued = key :: rest) :
    q.get = (.key key,
      { q with
          queued := rest
          dirty := q.dirty.erase key
          processing := q.processing.add key }) := by
  simp only [get, h]

/-- An open queue hands out the first key that is queued, or lets the worker
wait. -/
theorem get_cases (hopen : q.closed = false) :
    q.get = (.wait, q) ∨ ∃ next rest, q.queued = next :: rest ∧
      q.get = (.key next, ⟨rest, q.dirty.erase next, q.processing.add next, q.failures, false⟩) := by
  rcases hqueued : q.queued with _ | ⟨next, rest⟩
  · exact .inl (by rw [get_of_nil hqueued, hopen]; rfl)
  · exact .inr ⟨next, rest, rfl, by rw [get_of_cons hqueued, hopen]⟩

theorem closed_get (q : Queue κ) : q.get.2.closed = q.closed := by
  unfold get
  split <;> rfl

variable [Std.LawfulEqOrd κ]

theorem contains_dirty_add (hopen : q.closed = false) :
    (q.add key').dirty.contains key = true ↔ key = key' ∨ q.dirty.contains key = true := by
  rcases add_cases hopen key' with ⟨hknown, hadd⟩ | ⟨-, hadd⟩
  · rw [hadd]
    exact ⟨.inr, fun h => h.elim (fun h => h ▸ hknown) id⟩
  · rw [hadd]
    exact OrdSet.contains_add_iff

/-- A key that is to be processed stays so when keys are added. -/
theorem contains_dirty_add_of (h : q.dirty.contains key = true) (key' : κ) :
    (q.add key').dirty.contains key = true := by
  rcases hclosed : q.closed with _ | _
  · exact (contains_dirty_add hclosed).2 (.inr h)
  · rwa [add_of_closed hclosed]

theorem failuresOf_fail (q : Queue κ) (key key' : κ) [DecidableEq κ] :
    (q.fail key').failuresOf key = if key = key' then q.failuresOf key + 1 else q.failuresOf key := by
  split
  · rename_i hkey
    simp [fail, failuresOf, hkey]
  · rename_i hkey
    simp [fail, failuresOf, OrdMap.get?_insert_of_ne _ _ hkey]

end Operations

theorem failuresOf_forget [Std.LawfulEqOrd κ] [DecidableEq κ] (q : Queue κ) (key key' : κ) :
    (q.forget key').failuresOf key = if key = key' then 0 else q.failuresOf key := by
  split
  · rename_i hkey
    simp [forget, failuresOf, hkey]
  · rename_i hkey
    simp [forget, failuresOf, OrdMap.get?_erase_of_ne _ hkey]

/-! ### The keys that can be handed out -/

/-- Whether the keys that can be handed out are the dirty ones that are not
handed out, each of them once. -/
structure Orderly (q : Queue κ) : Prop where
  nodup : q.queued.Nodup
  mem_queued_iff : ∀ key,
    key ∈ q.queued ↔ q.dirty.contains key = true ∧ q.processing.contains key = false

theorem orderly_empty : (empty : Queue κ).Orderly := ⟨.nil, by simp [empty]⟩

namespace Orderly

/-- A queue stays orderly if a key that it could not hand out is queued as the
only one that now can be. -/
theorem append (h : q.Orderly) (hnot : key ∉ q.queued) (hqueued : q'.queued = q.queued ++ [key])
    (hstatus : ∀ key', q'.dirty.contains key' = true ∧ q'.processing.contains key' = false ↔
      key' = key ∨ q.dirty.contains key' = true ∧ q.processing.contains key' = false) :
    q'.Orderly where
  nodup := by
    rw [hqueued, List.nodup_append_comm]
    exact List.nodup_cons.2 ⟨hnot, h.nodup⟩
  mem_queued_iff key' := by
    rw [hqueued, List.mem_append, List.mem_singleton, h.mem_queued_iff, hstatus, or_comm]

variable [Std.LawfulEqOrd κ]

theorem done (h : q.Orderly) (hheld : q.processing.contains key = true) :
    (q.done key).Orderly := by
  have hnot : key ∉ q.queued := fun hmem => by
    rw [((h.mem_queued_iff key).1 hmem).2] at hheld
    cases hheld
  rw [done_eq]
  rcases hdirty : q.dirty.contains key with _ | _
  · refine ⟨h.nodup, fun key' => ?_⟩
    simp only [Bool.false_eq_true, if_false, h.mem_queued_iff, Bool.eq_false_iff, ne_eq,
      OrdMap.contains_erase_iff]
    by_cases hkey : key' = key
    · simp [hkey, hdirty]
    · simp [hkey]
  · refine h.append hnot (by simp) fun key' => ?_
    simp only [Bool.eq_false_iff, ne_eq, OrdMap.contains_erase_iff]
    by_cases hkey : key' = key
    · simp [hkey, hdirty]
    · simp [hkey]

variable [Std.TransOrd κ]

theorem add (h : q.Orderly) (key : κ) : (q.add key).Orderly := by
  rcases hclosed : q.closed with _ | _
  case true => rwa [add_of_closed hclosed]
  rcases add_cases hclosed key with ⟨-, hadd⟩ | ⟨hnew, hadd⟩
  · rwa [hadd]
  have hnot : key ∉ q.queued := fun hmem => by
    rw [((h.mem_queued_iff key).1 hmem).1] at hnew
    cases hnew
  rw [hadd]
  rcases hheld : q.processing.contains key with _ | _
  · refine h.append hnot (by simp) fun key' => ?_
    simp only [OrdSet.contains_add_iff]
    constructor
    · rintro ⟨hkey | hdirty, hfree⟩
      · exact .inl hkey
      · exact .inr ⟨hdirty, hfree⟩
    · rintro (rfl | ⟨hdirty, hfree⟩)
      · exact ⟨.inl rfl, hheld⟩
      · exact ⟨.inr hdirty, hfree⟩
  · -- the key is queued when its processing ends
    refine ⟨h.nodup, fun key' => ?_⟩
    simp only [if_true, h.mem_queued_iff, OrdSet.contains_add_iff]
    constructor
    · exact fun ⟨hdirty, hfree⟩ => ⟨.inr hdirty, hfree⟩
    · rintro ⟨rfl | hdirty, hfree⟩
      · rw [hheld] at hfree
        cases hfree
      · exact ⟨hdirty, hfree⟩

theorem get (h : q.Orderly) : q.get.2.Orderly := by
  rcases hqueued : q.queued with _ | ⟨key, rest⟩
  · rwa [get_of_nil hqueued]
  rw [get_of_cons hqueued]
  have hnodup := h.nodup
  rw [hqueued, List.nodup_cons] at hnodup
  refine ⟨hnodup.2, fun key' => ?_⟩
  have hmem := h.mem_queued_iff key'
  simp only [hqueued, List.mem_cons, Bool.eq_false_iff, ne_eq, OrdMap.contains_erase_iff,
    OrdSet.contains_add_iff] at hmem ⊢
  by_cases hkey : key' = key
  · simp [hkey, hnodup.1]
  · simpa [hkey] using hmem

end Orderly

end PodFirewall.Queue
