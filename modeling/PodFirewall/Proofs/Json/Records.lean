import PodFirewall.Kube.Metadata
import PodFirewall.Proofs.Json.Rendering

/-!
Records that are read back as they were written. A record is written as its
fields in a fixed order, without those that are not set; `Json.written` says this
for all records at once. If its field names differ, a reader finds at each name
what was written there, and a field that was left out reads as not set.
-/

namespace PodFirewall

namespace OrdMap

open Std

universe u v

variable {κ : Type u} {α : Type v} [Ord κ]

theorem eq_of_toList {m m' : OrdMap κ α} (h : m.toList = m'.toList) : m = m' := by
  cases m
  cases m'
  cases h
  rfl

theorem insertEntry_of_behind {k : κ} {v : α} {l : List (κ × α)}
    (h : ∀ e ∈ l, compare k e.1 = .gt) : insertEntry k v l = l ++ [(k, v)] := by
  induction l with
  | nil => rfl
  | cons e rest ih =>
    obtain ⟨he, hrest⟩ := List.forall_mem_cons.1 h
    simp only [insertEntry, he, ih hrest, List.cons_append]

variable [TransOrd κ]

theorem toList_foldl_insert {entries : List (κ × α)} {m : OrdMap κ α}
    (h : (m.toList ++ entries).Pairwise fun a b => compare a.1 b.1 = .lt) :
    (entries.foldl (fun m e => m.insert e.1 e.2) m).toList = m.toList ++ entries := by
  induction entries generalizing m with
  | nil => rw [List.append_nil]; rfl
  | cons e rest ih =>
    have hbehind : (m.insert e.1 e.2).toList = m.toList ++ [e] :=
      insertEntry_of_behind fun e' he' =>
        OrientedCmp.gt_of_lt ((List.pairwise_append.1 h).2.2 e' he' e List.mem_cons_self)
    rw [List.append_cons, ← hbehind] at h
    rw [List.foldl_cons, ih h, hbehind, List.append_assoc, List.singleton_append]

/-- A map is the map of its entries. -/
theorem ofList_toList (m : OrdMap κ α) : ofList m.toList = m :=
  eq_of_toList (toList_foldl_insert m.sorted)

end OrdMap

namespace Json

variable {α : Type} {read : Json → Option α} {write : α → Json}

theorem list?_ofList {l : List α} (h : ∀ a ∈ l, read (write a) = some a) :
    list? read (ofList write l) = some l := by
  rw [ofList, list?]
  induction l with
  | nil => rfl
  | cons a rest ih =>
    obtain ⟨ha, hrest⟩ := List.forall_mem_cons.1 h
    rw [List.map_cons, List.mapM_cons, ha, ih hrest]
    rfl

/-- Whether a reader takes back whatever a writer writes, which is never `null` and can be
written as a text. -/
structure Reads (read : Json → Option α) (write : α → Json) : Prop where
  back : ∀ a, read (write a) = some a
  null : read .null = none
  integral : ∀ a, (write a).Integral

namespace Reads

theorem str : Reads str? .str := ⟨fun _ => rfl, rfl, .str⟩

theorem bool : Reads bool? .bool := ⟨fun _ => rfl, rfl, .bool⟩

theorem list (h : Reads read write) : Reads (list? read) (ofList write) where
  back _ := list?_ofList fun a _ => h.back a
  null := rfl
  integral _ := .arr (List.forall_mem_map.2 fun a _ => h.integral a)

theorem labels : Reads Labels.ofJson? Labels.toJson where
  back l := by
    have hmembers (entries : List (String × String)) :
        (entries.map fun e => (e.1, Json.str e.2)).mapM
          (fun m => (str? m.2).map fun a => (m.1, a)) = some entries := by
      induction entries with
      | nil => rfl
      | cons e rest ih => rw [List.map_cons, List.mapM_cons, ih]; rfl
    rw [Labels.toJson, Labels.ofJson?, map?, hmembers]
    exact congrArg some (OrdMap.ofList_toList l)
  null := rfl
  integral l := .obj (List.forall_mem_map.2 fun e _ => .str e.2)

end Reads

/-! ### Fields that are set and fields that are not -/

def written (fields : List (String × Option Json)) : List (String × Json) :=
  fields.flatMap fun f => optional f.1 f.2

theorem keys_written (fields : List (String × Option Json)) :
    ((written fields).map (·.1)).Sublist (fields.map (·.1)) := by
  induction fields with
  | nil => exact .slnil
  | cons f rest ih =>
    obtain ⟨name, _ | j⟩ := f
    · exact ih.cons _
    · exact ih.cons_cons _

variable {fields : List (String × Option Json)} {name : String}

/-- A record whose names differ is accepted under whatever names. -/
theorem fields?_written (h : (fields.map (·.1)).Nodup) (names : List String) (least : Nat) :
    fields? names least (.obj (written fields)) = some (written fields) := by
  have honce (name : String) : ((written fields).filter fun m => m.1 == name).length ≤ 1 := by
    have hcount := List.nodup_iff_count.1 (h.sublist (keys_written fields)) name
    rwa [List.count, List.countP_map, List.countP_eq_length_filter] at hcount
  rw [fields?, if_pos (List.all_eq_true.2 fun name _ => by simpa using honce name)]

theorem lookup_eq_none {members : List (String × Json)} (h : name ∉ members.map (·.1)) :
    lookup members name = none := by
  rw [lookup, Option.map_eq_none_iff, List.find?_eq_none]
  exact fun m hm heq => h (List.mem_map.2 ⟨m, hm, by simpa using heq⟩)

/-- At each name stands what was written there. -/
theorem lookup_written (h : (fields.map (·.1)).Nodup) {j : Option Json}
    (hj : (name, j) ∈ fields) : lookup (written fields) name = j := by
  induction fields with
  | nil => cases hj
  | cons f rest ih =>
    obtain ⟨hnew, hrest⟩ := List.nodup_cons.1 h
    rw [written, List.flatMap_cons, lookup_append]
    rcases List.mem_cons.1 hj with rfl | hj
    · have hnone : lookup (written rest) name = none :=
        lookup_eq_none fun hmem => hnew ((keys_written rest).subset hmem)
      rw [written] at hnone
      rw [lookup_optional_self, hnone, Option.or_none]
    · have hne : f.1 ≠ name := by
        rintro rfl
        exact hnew (List.mem_map.2 ⟨_, hj, rfl⟩)
      rw [lookup_optional_of_ne _ hne, Option.none_or]
      exact ih hrest hj

theorem Integral.written (h : ∀ f ∈ fields, ∀ j ∈ f.2, Integral j) :
    Integral (.obj (written fields)) := by
  refine .obj fun m hm => ?_
  obtain ⟨f, hf, hmem⟩ := List.mem_flatMap.1 hm
  obtain ⟨name, _ | j⟩ := f
  · cases hmem
  · obtain rfl := List.mem_singleton.1 hmem
    exact h _ hf j rfl

theorem withDefault_written (h : (fields.map (·.1)).Nodup) {j : Json}
    (hj : (name, some j) ∈ fields) (default : α) :
    withDefault (written fields) name read default = read j := by
  rw [withDefault, lookup_written h hj]

theorem nullable?_of_ne_null {j : Json} (h : j ≠ .null) : nullable? read j = (read j).map some := by
  unfold nullable?
  split
  · exact absurd rfl h
  · rfl

namespace Reads

theorem integral_set (h : Reads read write) (a : α) : ∀ j ∈ some (write a), j.Integral := by
  rintro _ ⟨⟩
  exact h.integral a

theorem integral_maybe (h : Reads read write) (o : Option α) : ∀ j ∈ o.map write, j.Integral := by
  intro j hj
  obtain ⟨a, -, rfl⟩ := Option.map_eq_some_iff.1 hj
  exact h.integral a

theorem integral_list (h : Reads read write) (l : List α) :
    ∀ j ∈ if l.isEmpty then none else some (ofList write l), j.Integral := by
  cases l with
  | nil => nofun
  | cons a rest => exact h.list.integral_set (a :: rest)

/-- A field that has a default reads as what was written. -/
theorem withDefault (h : Reads read write) (hfields : (fields.map (·.1)).Nodup) {a : α}
    (ha : (name, some (write a)) ∈ fields) (default : α) :
    withDefault (written fields) name read default = some a := by
  rw [withDefault_written hfields ha, h.back]

/-- A field that may be missing reads as what was written, or as not set. -/
theorem maybe (h : Reads read write) (hfields : (fields.map (·.1)).Nodup) {o : Option α}
    (ho : (name, o.map write) ∈ fields) : maybe (written fields) name read = some o := by
  rw [Json.maybe, lookup_written hfields ho]
  cases o with
  | none => rfl
  | some a =>
    have hset : write a ≠ .null := by
      intro hnull
      have hback := h.back a
      rw [hnull, h.null] at hback
      cases hback
    rw [Option.map_some]
    dsimp only
    rw [nullable?_of_ne_null hset, h.back, Option.map_some]

/-- A list that was left out because it is empty reads as the empty list. -/
theorem optionalList (h : Reads read write) (hfields : (fields.map (·.1)).Nodup) {l : List α}
    (hl : (name, if l.isEmpty then none else some (ofList write l)) ∈ fields) :
    Json.withDefault (written fields) name (list? read) [] = some l := by
  rw [Json.withDefault, lookup_written hfields hl]
  cases l with
  | nil => rfl
  | cons a rest => exact h.list.back (a :: rest)

/-- A record is read back if its fields are, which have different names. -/
theorem record (fields : α → List (String × Option Json)) {names : List String} {least : Nat}
    {decode : List (String × Json) → Option α}
    (hwrite : ∀ a, write a = .obj (written (fields a)))
    (hread : ∀ j, read j = (fields? names least j).bind decode)
    (hnames : ∀ a, ((fields a).map (·.1)).Nodup)
    (hback : ∀ a, ((fields a).map (·.1)).Nodup → decode (written (fields a)) = some a)
    (hintegral : ∀ a, ∀ f ∈ fields a, ∀ j ∈ f.2, j.Integral) : Reads read write where
  back a := by rw [hwrite, hread, fields?_written (hnames a), Option.bind_some, hback a (hnames a)]
  null := hread .null
  integral a := by
    rw [hwrite]
    exact .written (hintegral a)

end Reads

end Json

end PodFirewall
