/-!
Finite maps that are listed in the order of their keys.
A map is its list of entries together with the fact that the keys ascend, so
two maps with the same entries are equal. `get?_eq_some_iff` reads a map
through its entries, and `ext_get?` says that a map is determined by what it
answers.
-/

namespace PodFirewall

open Std

universe u v w

/-- A finite map with its entries in ascending order of the keys. -/
structure OrdMap (κ : Type u) (α : Type v) [Ord κ] where
  toList : List (κ × α)
  sorted : toList.Pairwise fun a b => compare a.1 b.1 = .lt
  deriving DecidableEq

namespace OrdMap

variable {κ : Type u} {α : Type v} {β : Type w} [Ord κ]

def empty : OrdMap κ α := ⟨[], .nil⟩

instance : EmptyCollection (OrdMap κ α) := ⟨empty⟩
instance : Inhabited (OrdMap κ α) := ⟨empty⟩

def keys (m : OrdMap κ α) : List κ := m.toList.map (·.1)

def values (m : OrdMap κ α) : List α := m.toList.map (·.2)

def size (m : OrdMap κ α) : Nat := m.toList.length

def isEmpty (m : OrdMap κ α) : Bool := m.toList.isEmpty

def get? (m : OrdMap κ α) (k : κ) : Option α :=
  (m.toList.find? fun e => compare e.1 k == .eq).map (·.2)

def contains (m : OrdMap κ α) (k : κ) : Bool := (m.get? k).isSome

/-- Puts an entry at its place in an ascending list, in place of the entry
with the same key if there is one. -/
def insertEntry (k : κ) (v : α) : List (κ × α) → List (κ × α)
  | [] => [(k, v)]
  | e :: rest =>
    match compare k e.1 with
    | .lt => (k, v) :: e :: rest
    | .eq => (k, v) :: rest
    | .gt => e :: insertEntry k v rest

theorem mem_insertEntry {k : κ} {v : α} {x : κ × α} {l : List (κ × α)}
    (h : x ∈ insertEntry k v l) : x = (k, v) ∨ x ∈ l := by
  induction l with
  | nil => simpa [insertEntry] using h
  | cons e rest ih =>
    simp only [insertEntry] at h
    split at h <;> grind

def filter (m : OrdMap κ α) (p : κ → α → Bool) : OrdMap κ α :=
  ⟨m.toList.filter fun e => p e.1 e.2, m.sorted.filter _⟩

def erase (m : OrdMap κ α) (k : κ) : OrdMap κ α :=
  m.filter fun k' _ => compare k' k != .eq

def map (m : OrdMap κ α) (f : κ → α → β) : OrdMap κ β :=
  ⟨m.toList.map fun e => (e.1, f e.1 e.2), by
    rw [List.pairwise_map]; exact m.sorted⟩

theorem mem_insertEntry_self (k : κ) (v : α) (l : List (κ × α)) :
    (k, v) ∈ insertEntry k v l := by
  induction l with
  | nil => simp [insertEntry]
  | cons e rest ih => simp only [insertEntry]; split <;> simp [ih]

/-! ### Reading a map through its entries -/

@[simp] theorem toList_filter (m : OrdMap κ α) (p : κ → α → Bool) :
    (m.filter p).toList = m.toList.filter fun e => p e.1 e.2 := rfl

section Lookup

variable [LawfulEqOrd κ]

/-- A key holds a value exactly when the two are an entry. -/
theorem get?_eq_some_iff {m : OrdMap κ α} {k : κ} {v : α} :
    m.get? k = some v ↔ (k, v) ∈ m.toList := by
  obtain ⟨l, hl⟩ := m
  simp only [get?]
  induction l with
  | nil => simp
  | cons e rest ih =>
    rw [List.pairwise_cons] at hl
    rw [List.find?_cons]
    by_cases he : compare e.1 k = .eq
    · have hek : e.1 = k := LawfulEqCmp.eq_of_compare he
      simp only [he, beq_self_eq_true, Option.map_some, Option.some.injEq, List.mem_cons]
      constructor
      · intro hv; left; rw [← hek, ← hv]
      · rintro (h | h)
        · rw [← h]
        · have := hl.1 _ h
          rw [hek] at this
          simp [ReflCmp.compare_self] at this
    · have : (compare e.1 k == Ordering.eq) = false := by simpa using he
      simp only [this, List.mem_cons]
      rw [ih hl.2]
      constructor
      · exact Or.inr
      · rintro (h | h)
        · rw [← h] at he; exact absurd ReflCmp.compare_self he
        · exact h

theorem get?_eq_none_iff {m : OrdMap κ α} {k : κ} :
    m.get? k = none ↔ ∀ v, (k, v) ∉ m.toList := by
  constructor
  · intro h v hv
    rw [get?_eq_some_iff.2 hv] at h
    cases h
  · intro h
    cases hk : m.get? k with
    | none => rfl
    | some v => exact absurd (get?_eq_some_iff.1 hk) (h v)

theorem mem_keys {m : OrdMap κ α} {k : κ} : k ∈ m.keys ↔ (m.get? k).isSome := by
  simp only [keys, List.mem_map, Option.isSome_iff_exists, get?_eq_some_iff]
  constructor
  · rintro ⟨e, he, rfl⟩; exact ⟨e.2, he⟩
  · rintro ⟨v, hv⟩; exact ⟨_, hv, rfl⟩

theorem nodup_keys (m : OrdMap κ α) : m.keys.Nodup := by
  refine List.pairwise_map.2 (m.sorted.imp fun {a b} hlt heq => ?_)
  rw [heq, ReflOrd.compare_self] at hlt
  cases hlt

theorem mem_insertEntry_of_ne {k : κ} {v : α} {x : κ × α} {l : List (κ × α)}
    (hx : x ∈ l) (hk : x.1 ≠ k) : x ∈ insertEntry k v l := by
  induction l with
  | nil => cases hx
  | cons e rest ih =>
    simp only [insertEntry]
    split <;> rename_i hc
    · exact List.mem_cons_of_mem _ hx
    · rcases List.mem_cons.1 hx with rfl | hx
      · exact absurd (LawfulEqCmp.eq_of_compare hc).symm hk
      · exact List.mem_cons_of_mem _ hx
    · rcases List.mem_cons.1 hx with rfl | hx
      · exact List.mem_cons_self
      · exact List.mem_cons_of_mem _ (ih hx)

@[simp] theorem get?_erase_self (m : OrdMap κ α) (k : κ) : (m.erase k).get? k = none := by
  rw [get?_eq_none_iff]
  intro v hv
  simp [erase, List.mem_filter, ReflCmp.compare_self] at hv

theorem get?_erase_of_ne (m : OrdMap κ α) {k k' : κ} (h : k' ≠ k) :
    (m.erase k).get? k' = m.get? k' := by
  have hc : compare k' k ≠ .eq := fun hc => h (LawfulEqCmp.eq_of_compare hc)
  cases hk : m.get? k' with
  | none =>
    rw [get?_eq_none_iff] at hk ⊢
    intro v hv
    exact hk v (List.mem_filter.1 hv).1
  | some v =>
    rw [get?_eq_some_iff] at hk ⊢
    exact List.mem_filter.2 ⟨hk, by simpa using hc⟩

theorem contains_erase_iff {m : OrdMap κ α} {k k' : κ} :
    (m.erase k).contains k' = true ↔ k' ≠ k ∧ m.contains k' = true := by
  by_cases h : k' = k
  · simp [contains, h]
  · simp [contains, h, get?_erase_of_ne]

theorem get?_map (m : OrdMap κ α) (f : κ → α → β) (k : κ) :
    (m.map f).get? k = (m.get? k).map (f k) := by
  cases hk : m.get? k with
  | none =>
    rw [get?_eq_none_iff] at hk
    rw [Option.map_none, get?_eq_none_iff]
    intro v hv
    obtain ⟨e, he, heq⟩ := List.mem_map.1 hv
    obtain ⟨rfl, -⟩ := Prod.mk.inj heq
    exact hk e.2 he
  | some v =>
    rw [get?_eq_some_iff] at hk
    rw [Option.map_some, get?_eq_some_iff]
    exact List.mem_map.2 ⟨(k, v), hk, rfl⟩

theorem get?_filter_eq_some_iff {m : OrdMap κ α} {p : κ → α → Bool} {k : κ} {v : α} :
    (m.filter p).get? k = some v ↔ m.get? k = some v ∧ p k v = true := by
  simp only [get?_eq_some_iff, toList_filter, List.mem_filter]

end Lookup

variable [TransOrd κ]

theorem insertEntry_sorted {k : κ} {v : α} {l : List (κ × α)}
    (h : l.Pairwise fun a b => compare a.1 b.1 = .lt) :
    (insertEntry k v l).Pairwise fun a b => compare a.1 b.1 = .lt := by
  induction l with
  | nil => simp [insertEntry]
  | cons e rest ih =>
    rw [List.pairwise_cons] at h
    simp only [insertEntry]
    split <;> rename_i hk <;> rw [List.pairwise_cons]
    · refine ⟨?_, List.pairwise_cons.2 h⟩
      intro x hx
      rcases List.mem_cons.1 hx with rfl | hx
      · exact hk
      · exact TransCmp.lt_trans hk (h.1 x hx)
    · exact ⟨fun x hx => TransCmp.lt_of_eq_of_lt hk (h.1 x hx), h.2⟩
    · refine ⟨?_, ih h.2⟩
      intro x hx
      rcases mem_insertEntry hx with rfl | hx
      · exact OrientedCmp.gt_iff_lt.1 hk
      · exact h.1 x hx

def insert (m : OrdMap κ α) (k : κ) (v : α) : OrdMap κ α :=
  ⟨insertEntry k v m.toList, insertEntry_sorted m.sorted⟩

/-- The map of a list of entries; of two entries with one key the later wins. -/
def ofList (entries : List (κ × α)) : OrdMap κ α :=
  entries.foldl (fun m e => m.insert e.1 e.2) empty

variable [LawfulEqOrd κ]

@[simp] theorem get?_insert_self (m : OrdMap κ α) (k : κ) (v : α) :
    (m.insert k v).get? k = some v :=
  get?_eq_some_iff.2 (mem_insertEntry_self k v m.toList)

theorem get?_insert_of_ne (m : OrdMap κ α) {k k' : κ} (v : α) (h : k' ≠ k) :
    (m.insert k v).get? k' = m.get? k' := by
  cases hk : m.get? k' with
  | none =>
    rw [get?_eq_none_iff] at hk ⊢
    intro v' hv'
    rcases mem_insertEntry hv' with h' | h'
    · exact h (congrArg Prod.fst h')
    · exact hk v' h'
  | some v' =>
    rw [get?_eq_some_iff] at hk ⊢
    exact mem_insertEntry_of_ne hk h

/-- Two ascending lists with the same members are equal. -/
theorem eq_of_sorted {l l' : List (κ × α)}
    (hl : l.Pairwise fun a b => compare a.1 b.1 = .lt)
    (hl' : l'.Pairwise fun a b => compare a.1 b.1 = .lt)
    (h : ∀ x, x ∈ l ↔ x ∈ l') : l = l' := by
  induction l generalizing l' with
  | nil =>
    cases l' with
    | nil => rfl
    | cons e _ => exact absurd ((h e).2 List.mem_cons_self) (by simp)
  | cons e rest ih =>
    cases l' with
    | nil => exact absurd ((h e).1 List.mem_cons_self) (by simp)
    | cons e' rest' =>
      rw [List.pairwise_cons] at hl hl'
      have heq : e = e' := by
        rcases List.mem_cons.1 ((h e).1 List.mem_cons_self) with he | he
        · exact he
        · rcases List.mem_cons.1 ((h e').2 List.mem_cons_self) with he' | he'
          · exact he'.symm
          · have h1 := hl'.1 e he
            have h2 := hl.1 e' he'
            rw [OrientedCmp.gt_of_lt h2] at h1
            cases h1
      subst heq
      congr 1
      refine ih hl.2 hl'.2 fun x => ?_
      have hx := h x
      simp only [List.mem_cons] at hx
      constructor
      · intro hm
        rcases hx.1 (Or.inr hm) with rfl | hm'
        · have := hl.1 x hm
          simp [ReflCmp.compare_self] at this
        · exact hm'
      · intro hm
        rcases hx.2 (Or.inr hm) with rfl | hm'
        · have := hl'.1 x hm
          simp [ReflCmp.compare_self] at this
        · exact hm'

/-- A map is determined by what it answers. -/
theorem ext_get? {m m' : OrdMap κ α} (h : ∀ k, m.get? k = m'.get? k) : m = m' := by
  have : m.toList = m'.toList := by
    refine eq_of_sorted m.sorted m'.sorted fun x => ?_
    obtain ⟨k, v⟩ := x
    rw [← get?_eq_some_iff, ← get?_eq_some_iff, h]
  cases m; cases m'; cases this; rfl

/-! ### Order of maps -/

/-- Maps are ordered like the lists of their entries, an entry by its key
first. -/
instance [Ord α] : Ord (OrdMap κ α) where
  compare a b :=
    letI : Ord (κ × α) := lexOrd
    compare a.toList b.toList

instance [Ord α] [TransOrd α] : TransOrd (OrdMap κ α) where
  eq_swap {a b} :=
    letI : Ord (κ × α) := lexOrd
    (OrientedOrd.eq_swap : compare a.toList b.toList = (compare b.toList a.toList).swap)
  isLE_trans {a b c} :=
    letI : Ord (κ × α) := lexOrd
    (TransOrd.isLE_trans : (compare a.toList b.toList).isLE → (compare b.toList c.toList).isLE →
      (compare a.toList c.toList).isLE)

instance [Ord α] [LawfulEqOrd α] : LawfulEqOrd (OrdMap κ α) where
  compare_self {a} :=
    letI : Ord (κ × α) := lexOrd
    (ReflOrd.compare_self : compare a.toList a.toList = .eq)
  eq_of_compare {a b} h := by
    let _ : Ord (κ × α) := lexOrd
    have : a.toList = b.toList := LawfulEqOrd.eq_of_compare h
    cases a; cases b; cases this; rfl

end OrdMap

abbrev OrdSet (κ : Type u) [Ord κ] := OrdMap κ Unit

namespace OrdSet

variable {κ : Type u} [Ord κ] [TransOrd κ]

def add (s : OrdSet κ) (k : κ) : OrdSet κ := s.insert k ()

theorem contains_add_iff [LawfulEqOrd κ] {s : OrdSet κ} {k k' : κ} :
    OrdMap.contains (s.add k) k' = true ↔ k' = k ∨ s.contains k' = true := by
  by_cases h : k' = k
  · simp [add, OrdMap.contains, h]
  · simp [add, OrdMap.contains, h, OrdMap.get?_insert_of_ne]

def ofMembers (members : List κ) : OrdSet κ :=
  members.foldl add OrdMap.empty

end OrdSet

end PodFirewall
