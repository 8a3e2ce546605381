import Mathlib.Data.List.Induction
import Mathlib.Data.List.InsertIdx
import Mathlib.Data.List.TakeWhile
import PodFirewall.Policy.Order

/-!
Insertion into the order of evaluation. Keys that arrive one after the other and
are put at their offset make an ascending list. The offset of a key is looked up
in a list that ascends already, and there it is the only place that splits the
list into the keys that come first and those that do not. Keys that are equal
cannot be told apart, so the list does not depend on the order of arrival.
-/

namespace PodFirewall

/-- Something put behind the first elements that satisfy a test. -/
theorem insertIdx_length_takeWhile {α : Type} (p : α → Bool) (x : α) (l : List α) :
    l.insertIdx (l.takeWhile p).length x = l.takeWhile p ++ x :: l.dropWhile p := by
  induction l with
  | nil => rfl
  | cons a rest ih =>
    rw [List.takeWhile_cons, List.dropWhile_cons]
    split
    · rw [List.length_cons, List.insertIdx_succ_cons, ih, List.cons_append]
    · rfl

namespace OrderKey

open Std

variable {a b c key : OrderKey} {keys keys' : List OrderKey}

/-! ### The order -/

theorem le_trans (h : a.le b = true) (h' : b.le c = true) : a.le c = true :=
  TransCmp.isLE_trans h h'

theorem le_of_not_le (h : ¬a.le b = true) : b.le a = true := by
  have hlt : compare b a = .lt := OrientedCmp.lt_of_not_isLE h
  rw [le, hlt]
  rfl

theorem le_antisymm (h : a.le b = true) (h' : b.le a = true) : a = b :=
  LawfulEqOrd.eq_of_compare (OrientedCmp.isLE_antisymm h h')

/-- Whether one creation time comes before another; none comes before all
others. -/
def Older : Option Timestamp → Option Timestamp → Prop
  | none, some _ => True
  | some s, some t => compare s t = .lt
  | _, none => False

/-- Whether the first field in which two keys differ is less in the first of
them. -/
def Precedes (a b : OrderKey) : Prop :=
  a.parentPriority < b.parentPriority ∨ a.parentPriority = b.parentPriority ∧
    (Older a.created b.created ∨ a.created = b.created ∧
      (a.parent < b.parent ∨ a.parent = b.parent ∧ a.priority < b.priority))

theorem compare_created_eq_lt (s t : Option Timestamp) : compare s t = .lt ↔ Older s t := by
  cases s <;> cases t <;> simp [compare, Older]

theorem compare_parent_eq_lt (s t : String) : compare s t = .lt ↔ s < t := by
  show compareOfLessAndEq s t = .lt ↔ s < t
  exact compareOfLessAndEq_eq_lt

theorem compare_eq_lt : compare a b = .lt ↔ a.Precedes b := by
  have hcompare : compare a b = (compare a.parentPriority b.parentPriority).then
      ((compare a.created b.created).then
        ((compare a.parent b.parent).then (compare a.priority b.priority))) := rfl
  rw [hcompare, Precedes, Ordering.then_eq_lt, Ordering.then_eq_lt, Ordering.then_eq_lt,
    compare_created_eq_lt, compare_parent_eq_lt]
  simp only [Std.compare_eq_lt, Std.compare_eq_iff_eq]

theorem le_iff : a.le b = true ↔ a.Precedes b ∨ a = b := by
  rw [← compare_eq_lt, ← Std.LawfulEqOrd.compare_eq_iff_eq (a := a) (b := b), le,
    Ordering.isLE_iff_eq_lt_or_eq_eq]

end OrderKey

namespace Record

/-- The text for the parent of a record is ordered by the dialect, then by the
name. -/
theorem parent_lt_iff (r r' : Record) : r.orderKey.parent < r'.orderKey.parent ↔
    r.parent.dialect.name < r'.parent.dialect.name ∨
      r.parent.dialect = r'.parent.dialect ∧ r.parent.name < r'.parent.name := by
  simp only [orderKey, String.lt_iff, String.toList_append]
  cases r.parent.dialect <;> cases r'.parent.dialect
  all_goals simp [Dialect.name, List.cons_lt_cons_iff]

end Record

namespace OrderKey

open Std

variable {a b c key : OrderKey} {keys keys' : List OrderKey}

/-! ### Insertion -/

def Ascending (keys : List OrderKey) : Prop := keys.Pairwise fun a b => a.le b = true

def insert (key : OrderKey) (keys : List OrderKey) : List OrderKey :=
  keys.insertIdx (key.offset keys) key

/-- The list that is made by keys that arrive one after the other. -/
def arrange (keys : List OrderKey) : List OrderKey :=
  keys.foldl (fun sorted key => key.insert sorted) []

structure Splits (key : OrderKey) (keys : List OrderKey) (n : Nat) : Prop where
  le_length : n ≤ keys.length
  before : ∀ k ∈ keys.take n, k.le key = true
  after : ∀ k ∈ keys.drop n, ¬k.le key = true

theorem insert_eq (key : OrderKey) (keys : List OrderKey) :
    key.insert keys = keys.takeWhile (·.le key) ++ key :: keys.dropWhile (·.le key) :=
  insertIdx_length_takeWhile _ _ _

theorem insert_perm (key : OrderKey) (keys : List OrderKey) :
    (key.insert keys).Perm (key :: keys) := by
  have hmiddle : (key.insert keys).Perm
      (key :: (keys.takeWhile (·.le key) ++ keys.dropWhile (·.le key))) := by
    rw [insert_eq]
    exact List.perm_middle
  rwa [List.takeWhile_append_dropWhile] at hmiddle

theorem le_of_mem_takeWhile : ∀ k ∈ keys.takeWhile (·.le key), k.le key = true := fun _ hk =>
  List.mem_takeWhile_imp (p := fun k : OrderKey => k.le key) hk

/-- In a list that ascends, no key behind the first that comes after a given one
comes before it. -/
theorem Ascending.not_le_of_mem_dropWhile (h : Ascending keys) :
    ∀ k ∈ keys.dropWhile (·.le key), ¬k.le key = true := by
  induction keys with
  | nil => simp
  | cons first rest ih =>
    obtain ⟨hfirst, hrest⟩ := List.pairwise_cons.1 h
    rw [List.dropWhile_cons]
    split
    · exact ih hrest
    · rename_i hnot
      refine List.forall_mem_cons.2 ⟨hnot, fun k hk hle => hnot ?_⟩
      exact le_trans (hfirst k hk) hle

theorem Ascending.insert (h : Ascending keys) (key : OrderKey) : Ascending (key.insert keys) := by
  have hafter : ∀ k ∈ keys.dropWhile (·.le key), key.le k = true := fun k hk =>
    le_of_not_le (h.not_le_of_mem_dropWhile k hk)
  rw [insert_eq]
  refine List.pairwise_append.2 ⟨h.sublist (List.takeWhile_sublist _), ?_, fun k hk k' hk' => ?_⟩
  · exact List.pairwise_cons.2 ⟨hafter, h.sublist (List.dropWhile_sublist _)⟩
  · rcases List.mem_cons.1 hk' with rfl | hk'
    · exact le_of_mem_takeWhile k hk
    · exact le_trans (le_of_mem_takeWhile k hk) (hafter k' hk')

theorem splits_append {before after : List OrderKey} (hbefore : ∀ k ∈ before, k.le key = true)
    (hafter : ∀ k ∈ after, ¬k.le key = true) : key.Splits (before ++ after) before.length where
  le_length := by simp
  before := by rwa [List.take_left' rfl]
  after := by rwa [List.drop_left' rfl]

/-- In a list that ascends, a key splits the list at its offset. -/
theorem Ascending.splits_offset (h : Ascending keys) (key : OrderKey) :
    key.Splits keys (key.offset keys) := by
  have hbefore : ∀ k ∈ keys.takeWhile (·.le key), k.le key = true := le_of_mem_takeWhile
  have hsplit := splits_append hbefore h.not_le_of_mem_dropWhile
  rwa [List.takeWhile_append_dropWhile] at hsplit

/-- A list is split by a key at one place only. -/
theorem Splits.le {n m : Nat} (h : key.Splits keys n) (h' : key.Splits keys m) : n ≤ m := by
  refine Nat.le_of_not_lt fun hlt => ?_
  have hm : m < keys.length := Nat.lt_of_lt_of_le hlt h.le_length
  refine h'.after keys[m] ?_ (h.before keys[m] ?_)
  · exact List.mem_drop_iff_getElem.2 ⟨0, by simpa using hm, by simp⟩
  · exact List.mem_take_iff_getElem.2 ⟨m, by omega, rfl⟩

theorem Ascending.splits_iff (h : Ascending keys) {n : Nat} :
    key.Splits keys n ↔ n = key.offset keys := by
  have hoffset := h.splits_offset key
  refine ⟨fun hn => Nat.le_antisymm (hn.le hoffset) (hoffset.le hn), ?_⟩
  rintro rfl
  exact hoffset

/-! ### Keys that arrive one after the other -/

theorem arrange_concat (keys : List OrderKey) (key : OrderKey) :
    arrange (keys ++ [key]) = key.insert (arrange keys) := by
  rw [arrange, List.foldl_append]
  rfl

theorem arrange_ascending (keys : List OrderKey) : Ascending (arrange keys) := by
  induction keys using List.reverseRecOn with
  | nil => exact .nil
  | append_singleton keys key ih =>
    rw [arrange_concat]
    exact ih.insert key

theorem arrange_perm (keys : List OrderKey) : (arrange keys).Perm keys := by
  induction keys using List.reverseRecOn with
  | nil => exact .nil
  | append_singleton keys key ih =>
    rw [arrange_concat]
    exact ((insert_perm key _).trans (ih.cons key)).trans (List.perm_append_singleton key keys).symm

/-- An ascending list is determined by its keys. -/
theorem Ascending.eq_of_perm (h : Ascending keys) (h' : Ascending keys') (hperm : keys.Perm keys') :
    keys = keys' :=
  hperm.eq_of_pairwise (fun _ _ _ _ => le_antisymm) h h'

/-- Keys that arrive one after the other and are put at their offset make an
ascending list of just these keys at any time. Each is put behind all keys that
come before it or equal it and in front of all others, at the only place that
separates the two; and the list at the end does not depend on the order of
arrival. The order is total, and its first difference decides: the priority of
the parent, its age, its dialect, its name, the priority within the parent. -/
theorem arrange_sorts (keys : List OrderKey) :
    (∀ n, Ascending (arrange (keys.take n)) ∧ (arrange (keys.take n)).Perm (keys.take n)) ∧
    (∀ key, ∃ before after, arrange keys = before ++ after ∧
      arrange (keys ++ [key]) = before ++ key :: after ∧
      (∀ k ∈ before, k.le key = true) ∧ (∀ k ∈ after, ¬k.le key = true) ∧
      ∀ n, key.Splits (arrange keys) n ↔ n = before.length) ∧
    (∀ keys', keys'.Perm keys → arrange keys' = arrange keys) ∧
    (∀ a b : OrderKey, a.le b = true ↔ a.Precedes b ∨ a = b) ∧
    (∀ a b : OrderKey, a.le b = true ∨ b.le a = true) ∧
    (∀ a b : OrderKey, a.le b = true → b.le a = true → a = b) ∧
    (∀ a b c : OrderKey, a.le b = true → b.le c = true → a.le c = true) ∧
    ∀ r r' : Record, r.orderKey.parent < r'.orderKey.parent ↔
      r.parent.dialect.name < r'.parent.dialect.name ∨
        r.parent.dialect = r'.parent.dialect ∧ r.parent.name < r'.parent.name := by
  refine ⟨fun n => ⟨arrange_ascending _, arrange_perm _⟩, fun key => ?_, fun keys' hperm => ?_,
    fun _ _ => le_iff, fun a b => ?_, fun _ _ => le_antisymm, fun _ _ _ => le_trans,
    Record.parent_lt_iff⟩
  · have hsorted := arrange_ascending keys
    refine ⟨_, _, List.takeWhile_append_dropWhile.symm, ?_, le_of_mem_takeWhile,
      hsorted.not_le_of_mem_dropWhile, fun n => hsorted.splits_iff⟩
    rw [arrange_concat, insert_eq]
  · refine (arrange_ascending keys').eq_of_perm (arrange_ascending keys) ?_
    exact ((arrange_perm keys').trans hperm).trans (arrange_perm keys).symm
  · exact Decidable.or_iff_not_imp_left.2 le_of_not_le

/-- Five keys, one of them twice, that arrive in two orders. -/
theorem arrange_sorts_of_repeated :
    let old : OrderKey := ⟨5, none, "k8s:b", 0⟩
    let young : OrderKey := ⟨5, some ⟨1, 0⟩, "k8s:a", 0⟩
    let second : OrderKey := ⟨5, none, "k8s:b", 1⟩
    let first : OrderKey := ⟨3, some ⟨2, 0⟩, "pcn:a", 7⟩
    let keys := [young, second, first, old, second]
    let keys' := [second, old, second, young, first]
    keys'.Perm keys ∧ arrange keys = [first, old, second, second, young] ∧
      arrange keys' = [first, old, second, second, young] := by
  intro old young second first keys keys'
  have hperm : keys'.Perm keys := by decide
  have hkeys : arrange keys = [first, old, second, second, young] := by decide
  exact ⟨hperm, hkeys, ((arrange_sorts keys).2.2.1 keys' hperm).trans hkeys⟩

end OrderKey

end PodFirewall
