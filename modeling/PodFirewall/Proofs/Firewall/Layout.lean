import Mathlib.Data.List.InsertIdx
import PodFirewall.Backend.Basic
import PodFirewall.Firewall.Ledger

/-!
Layouts: a chain as the list of its rules in order, each with the name it
belongs to, if it belongs to any. The ids of the rules are their places, so a
layout does not keep them. A chain and the ledger's records of it are both read
off one layout, and every change of the two is a change of the layout: appending
puts rules at its end, deleting takes one out.
-/

namespace PodFirewall

namespace Rule

/-- What a rule matches and does: the rule without its number and its
description. -/
def body (r : Rule) : Rule := { r with id := 0, description := none }

@[simp] theorem body_renumbered (r : Rule) (n : Nat) : ({ r with id := n } : Rule).body = r.body :=
  rfl

theorem sameMatch_iff (a b : Rule) : a.sameMatch b = true ↔ a.body = b.body := by
  cases a
  cases b
  simp [sameMatch, body, and_assoc]

/-! ### Numbering -/

@[simp] theorem length_numberFrom (k : Nat) (l : List Rule) :
    (numberFrom k l).length = l.length := by
  induction l generalizing k with
  | nil => rfl
  | cons r rest ih => simp [numberFrom, ih]

theorem getElem?_numberFrom (k : Nat) (l : List Rule) (j : Nat) :
    (numberFrom k l)[j]? = l[j]?.map fun r => { r with id := k + j } := by
  induction l generalizing k j with
  | nil => rfl
  | cons r rest ih =>
    cases j with
    | zero => rfl
    | succ j =>
      rw [numberFrom, List.getElem?_cons_succ, List.getElem?_cons_succ, ih,
        Nat.add_right_comm, Nat.add_assoc]

theorem map_id_numberFrom (k : Nat) (l : List Rule) :
    (numberFrom k l).map (·.id) = List.range' k l.length := by
  induction l generalizing k with
  | nil => rfl
  | cons r rest ih => simp [numberFrom, ih, List.range'_succ]

@[simp] theorem map_body_numberFrom (k : Nat) (l : List Rule) :
    (numberFrom k l).map body = l.map body := by
  induction l generalizing k with
  | nil => rfl
  | cons r rest ih => simp [numberFrom, ih]

theorem numberFrom_append (k : Nat) (l m : List Rule) :
    numberFrom k (l ++ m) = numberFrom k l ++ numberFrom (k + l.length) m := by
  induction l generalizing k with
  | nil => rfl
  | cons r rest ih => simp [numberFrom, ih, Nat.add_assoc, Nat.add_comm 1]

@[simp] theorem numberFrom_numberFrom (k j : Nat) (l : List Rule) :
    numberFrom k (numberFrom j l) = numberFrom k l := by
  induction l generalizing k j with
  | nil => rfl
  | cons r rest ih => simp [numberFrom, ih]

theorem map_pred_numberFrom (k : Nat) (l : List Rule) :
    ((numberFrom (k + 1) l).map fun r => ({ r with id := r.id - 1 } : Rule)) = numberFrom k l := by
  induction l generalizing k with
  | nil => rfl
  | cons r rest ih => simp [numberFrom, ih]

/-- Rules that are numbered from two places at once are none, or the places
are one. -/
theorem numberFrom_inj {k j : Nat} {l : List Rule} (hl : l ≠ [])
    (h : numberFrom k l = numberFrom j l) : k = j := by
  cases l with
  | nil => exact absurd rfl hl
  | cons r rest =>
    simp only [numberFrom, List.cons.injEq, Rule.mk.injEq] at h
    exact h.1.1

end Rule

namespace Ledger

theorem sameRules_iff (l m : List Rule) :
    sameRules l m = true ↔ l.map Rule.body = m.map Rule.body := by
  induction l generalizing m with
  | nil => cases m <;> simp [sameRules]
  | cons a l ih => cases m <;> simp [sameRules, ih, Rule.sameMatch_iff]

end Ledger

/-- The rules of a chain in order, each with the name it belongs to. Rules that
were there before the firewall belong to none. -/
abbrev Layout := List (Option String × Rule)

namespace Layout

def numberedFrom (k : Nat) : Layout → Layout
  | [] => []
  | e :: rest => (e.1, { e.2 with id := k }) :: numberedFrom (k + 1) rest

def rules (U : Layout) : List Rule := Rule.numberFrom 0 (U.map (·.2))

/-- A test of an entry by its name and by what its rule matches and does. -/
abbrev Test := Option String → Rule → Bool

def passes (q : Test) (e : Option String × Rule) : Bool := q e.1 e.2.body

def chosen (U : Layout) (q : Test) : List Rule := ((U.numberedFrom 0).filter (passes q)).map (·.2)

def ofName (name : String) : Test := fun n _ => n == some name

def ofNames (names : List String) : Test := fun n _ => n.any names.contains

@[simp] theorem passes_ofName (name : String) (e : Option String × Rule) :
    passes (ofName name) e = (e.1 == some name) := rfl

@[simp] theorem passes_ofNames (names : List String) (e : Option String × Rule) :
    passes (ofNames names) e = e.1.any names.contains := rfl

@[simp] theorem passes_renumbered (q : Test) (n : Option String) (r : Rule) (k : Nat) :
    passes q (n, { r with id := k }) = passes q (n, r) := by simp [passes]

theorem map_snd_numberedFrom (k : Nat) (U : Layout) :
    (U.numberedFrom k).map (·.2) = Rule.numberFrom k (U.map (·.2)) := by
  induction U generalizing k with
  | nil => rfl
  | cons e rest ih => simp [numberedFrom, Rule.numberFrom, ih]

theorem numberedFrom_append (k : Nat) (U V : Layout) :
    numberedFrom k (U ++ V) = numberedFrom k U ++ numberedFrom (k + U.length) V := by
  induction U generalizing k with
  | nil => rfl
  | cons e rest ih => simp [numberedFrom, ih, Nat.add_assoc, Nat.add_comm 1]

/-- The rules of a part of the layout are the same up to their ids, whether
they are numbered first or not. -/
theorem map_body_filter_numberedFrom (k : Nat) (U : Layout) (q : Test) :
    (((U.numberedFrom k).filter (passes q)).map fun e => e.2.body) =
      (U.filter (passes q)).map fun e => e.2.body := by
  induction U generalizing k with
  | nil => rfl
  | cons e rest ih =>
    simp only [numberedFrom, List.filter_cons, passes_renumbered]
    split <;> simp [ih]

theorem map_body_chosen (U : Layout) (q : Test) :
    (U.chosen q).map Rule.body = (U.filter (passes q)).map fun e => e.2.body := by
  rw [chosen, List.map_map, ← map_body_filter_numberedFrom 0]
  rfl

theorem map_body_rules (U : Layout) : U.rules.map Rule.body = U.map fun e => e.2.body := by
  rw [rules, Rule.map_body_numberFrom, List.map_map]
  rfl

theorem map_id_rules (U : Layout) : U.rules.map (·.id) = List.range U.length := by
  rw [rules, Rule.map_id_numberFrom, List.length_map, List.range_eq_range']

@[simp] theorem length_rules (U : Layout) : U.rules.length = U.length := by simp [rules]

theorem length_chosen (U : Layout) (q : Test) :
    (U.chosen q).length = (U.filter (passes q)).length := by
  have h := congrArg List.length (map_body_chosen U q)
  simpa using h

theorem chosen_eq_nil_iff (U : Layout) (q : Test) : U.chosen q = [] ↔ U.filter (passes q) = [] := by
  rw [← List.length_eq_zero_iff, ← List.length_eq_zero_iff, length_chosen]

theorem filter_chosen (U : Layout) (q : Test) (p : Rule → Bool) :
    ((U.chosen q).filter fun r => p r.body) = U.chosen fun n r => q n r && p r := by
  rw [chosen, chosen, List.filter_map, List.filter_filter]
  congr 1
  refine List.filter_congr fun e _ => ?_
  simp [passes, Bool.and_comm]

theorem rules_concat (U V : Layout) :
    rules (U ++ V) = U.rules ++ Rule.numberFrom U.length (V.map (·.2)) := by
  rw [rules, rules, List.map_append, Rule.numberFrom_append, List.length_map, Nat.zero_add]

theorem rules_append (U : Layout) (name : String) (rules : List Rule) :
    Layout.rules (U ++ rules.map fun r => (some name, r)) =
      U.rules ++ Rule.numberFrom U.length rules := by
  rw [rules_concat, List.map_map]
  simp [Function.comp_def]

theorem filter_numberedFrom_map (k : Nat) (name name' : String) (rules : List Rule) :
    ((numberedFrom k (rules.map fun r => (some name, r))).filter (passes (ofName name'))).map (·.2) =
      if name = name' then Rule.numberFrom k rules else [] := by
  induction rules generalizing k with
  | nil => simp [numberedFrom, Rule.numberFrom]
  | cons r rest ih =>
    simp only [List.map_cons, numberedFrom, List.filter_cons, passes_ofName, beq_iff_eq,
      Option.some.injEq]
    split
    · rename_i h
      rw [List.map_cons, ih, if_pos h, Rule.numberFrom]
    · rename_i h
      rw [ih, if_neg h]

theorem chosen_append (U : Layout) (name name' : String) (rules : List Rule) :
    chosen (U ++ rules.map fun r => (some name, r)) (ofName name') =
      U.chosen (ofName name') ++ if name = name' then Rule.numberFrom U.length rules else [] := by
  rw [chosen, numberedFrom_append, List.filter_append, List.map_append, Nat.zero_add,
    filter_numberedFrom_map]
  rfl

theorem mem_numberedFrom {k : Nat} {U : Layout} {x : Option String × Rule} :
    x ∈ U.numberedFrom k ↔
      ∃ (i : Nat) (e : Option String × Rule),
        U[i]? = some e ∧ x = (e.1, { e.2 with id := k + i }) := by
  induction U generalizing k with
  | nil => simp [numberedFrom]
  | cons e rest ih =>
    rw [numberedFrom, List.mem_cons, ih]
    constructor
    · rintro (rfl | ⟨i, e', he', rfl⟩)
      · exact ⟨0, e, rfl, rfl⟩
      · exact ⟨i + 1, e', he', by rw [Nat.add_right_comm, Nat.add_assoc]⟩
    · rintro ⟨i, e', he', rfl⟩
      cases i with
      | zero => exact .inl (by cases he'; rfl)
      | succ i => exact .inr ⟨i, e', he', by rw [Nat.add_right_comm, Nat.add_assoc]⟩

/-- A rule of the chain stands at the place that its id says. -/
theorem mem_chosen {U : Layout} {q : Test} {r : Rule} :
    r ∈ U.chosen q ↔
      ∃ e, U[r.id]? = some e ∧ passes q e = true ∧ r = { e.2 with id := r.id } := by
  rw [chosen, List.mem_map]
  constructor
  · rintro ⟨x, hx, rfl⟩
    obtain ⟨hmem, hpass⟩ := List.mem_filter.1 hx
    obtain ⟨i, e, he, rfl⟩ := mem_numberedFrom.1 hmem
    rw [passes_renumbered] at hpass
    exact ⟨e, by simpa using he, hpass, rfl⟩
  · rintro ⟨e, he, hpass, hr⟩
    refine ⟨(e.1, r), List.mem_filter.2 ⟨mem_numberedFrom.2 ⟨r.id, e, he, ?_⟩, ?_⟩, rfl⟩
    · rw [Nat.zero_add, ← hr]
    · rw [hr, passes_renumbered]
      exact hpass

theorem mem_rules {U : Layout} {r : Rule} :
    r ∈ U.rules ↔ ∃ e, U[r.id]? = some e ∧ r = { e.2 with id := r.id } := by
  have hall : U.rules = U.chosen fun _ _ => true := by
    have hkeep : (U.numberedFrom 0).filter (passes fun _ _ => true) = U.numberedFrom 0 :=
      List.filter_eq_self.2 fun _ _ => rfl
    rw [rules, chosen, hkeep, map_snd_numberedFrom]
  rw [hall, mem_chosen]
  constructor
  · rintro ⟨e, he, -, hr⟩
    exact ⟨e, he, hr⟩
  · rintro ⟨e, he, hr⟩
    exact ⟨e, he, rfl, hr⟩

/-- The rules of a layout come in the order of their ids. -/
theorem pairwise_chosen (U : Layout) (q : Test) : (U.chosen q).Pairwise fun a b => a.id < b.id := by
  have hall : ((U.numberedFrom 0).map (·.2)).Pairwise fun a b => a.id < b.id := by
    rw [map_snd_numberedFrom, ← List.pairwise_map (f := Rule.id) (R := (· < ·)),
      Rule.map_id_numberFrom]
    exact List.pairwise_lt_range'
  exact hall.sublist (List.filter_sublist.map _)

/-- Entries that do not pass a test add nothing to the rules that do. -/
theorem chosen_append_of_none (U : Layout) {V : Layout} {q : Test}
    (h : ∀ e ∈ V, passes q e = false) : chosen (U ++ V) q = U.chosen q := by
  have hnone : (numberedFrom (0 + U.length) V).filter (passes q) = [] := by
    refine List.filter_eq_nil_iff.2 fun x hx => ?_
    obtain ⟨i, e, he, rfl⟩ := mem_numberedFrom.1 hx
    rw [passes_renumbered, h e (List.mem_of_getElem? he)]
    exact Bool.false_ne_true
  rw [chosen, numberedFrom_append, List.filter_append, hnone, List.append_nil, chosen]

/-- The rules of a part of the layout are numbered in one way, whether they had
numbers before or not. -/
theorem numberFrom_filter_numberedFrom (k j : Nat) (U : Layout) (q : Test) :
    Rule.numberFrom k (((U.numberedFrom j).filter (passes q)).map (·.2)) =
      Rule.numberFrom k ((U.filter (passes q)).map (·.2)) := by
  induction U generalizing k j with
  | nil => rfl
  | cons e rest ih =>
    simp only [numberedFrom, List.filter_cons, passes_renumbered]
    split
    · rw [List.map_cons, List.map_cons, Rule.numberFrom, Rule.numberFrom, ih]
    · exact ih k (j + 1)

/-- Without the entries of a test, a layout has the chain without the rules that
pass it. -/
theorem rules_filter (U : Layout) (q : Test) :
    rules (U.filter fun e => !passes q e) =
      Rule.numberFrom 0 (U.rules.filter fun r => decide (r ∉ U.chosen q)) := by
  have hnot : ((U.numberedFrom 0).filter fun x => decide (x.2 ∉ U.chosen q)) =
      (U.numberedFrom 0).filter (passes fun n r => !q n r) := by
    refine List.filter_congr fun x hx => ?_
    obtain ⟨i, e, he, rfl⟩ := mem_numberedFrom.1 hx
    have hmem : ({ e.2 with id := 0 + i } : Rule) ∈ U.chosen q ↔ passes q e = true := by
      rw [mem_chosen]
      constructor
      · rintro ⟨e', he', hpass, -⟩
        rw [Nat.zero_add, he, Option.some.injEq] at he'
        rwa [he']
      · exact fun hpass => ⟨e, by rwa [Nat.zero_add], hpass, rfl⟩
    rw [Bool.eq_iff_iff, decide_eq_true_iff, hmem]
    simp [passes]
  have hrules : U.rules = (U.numberedFrom 0).map (·.2) := (map_snd_numberedFrom 0 U).symm
  rw [hrules, List.filter_map, Function.comp_def, hnot, numberFrom_filter_numberedFrom]
  rfl

/-! ### Deleting -/

/-- Behind a deleted rule all rules move up. -/
theorem without_numberedFrom_succ {k id : Nat} (h : id ≤ k) (U : Layout) (q : Test) :
    Ledger.without id (((numberedFrom (k + 1) U).filter (passes q)).map (·.2)) =
      ((numberedFrom k U).filter (passes q)).map (·.2) := by
  induction U generalizing k with
  | nil => rfl
  | cons e rest ih =>
    have hrest := ih (k := k + 1) (by omega)
    have hne : (k + 1 != id) = true := by simp; omega
    have hgt : k + 1 > id := by omega
    simp only [numberedFrom, List.filter_cons, passes_renumbered]
    split
    · simp only [Ledger.without, List.map_cons, List.filter_cons, hne, if_true, Rule.shift, hgt,
        Nat.add_sub_cancel, List.cons.injEq, true_and]
      exact hrest
    · exact hrest

theorem without_numberedFrom {k id : Nat} (h : k ≤ id) (U : Layout) (q : Test) :
    Ledger.without id (((numberedFrom k U).filter (passes q)).map (·.2)) =
      ((numberedFrom k (U.eraseIdx (id - k))).filter (passes q)).map (·.2) := by
  induction U generalizing k with
  | nil => rfl
  | cons e rest ih =>
    rcases Nat.eq_or_lt_of_le h with rfl | hlt
    · have hrest := without_numberedFrom_succ (Nat.le_refl k) rest q
      simp only [numberedFrom, List.filter_cons, passes_renumbered, Nat.sub_self,
        List.eraseIdx_zero, List.tail_cons]
      split
      · simp only [Ledger.without, List.map_cons, List.filter_cons, bne_self_eq_false,
          Bool.false_eq_true, if_false]
        exact hrest
      · exact hrest
    · have hrest := ih (k := k + 1) hlt
      have hne : (k != id) = true := by simp; omega
      have hgt : ¬k > id := by omega
      rw [show id - k = (id - (k + 1)) + 1 by omega, List.eraseIdx_cons_succ]
      simp only [numberedFrom, List.filter_cons, passes_renumbered]
      split
      · simp only [Ledger.without, List.map_cons, List.filter_cons, hne, if_true, Rule.shift, hgt,
          if_false, List.cons.injEq, true_and]
        exact hrest
      · exact hrest

/-- The records of a chain follow a deletion. -/
theorem without_chosen (U : Layout) (q : Test) (id : Nat) :
    Ledger.without id (U.chosen q) = (chosen (U.eraseIdx id) q) :=
  without_numberedFrom (Nat.zero_le id) U q

theorem deleteRule_numberFrom {k id : Nat} {l m : List Rule} (hk : k ≤ id)
    (h : Backend.deleteRule id (Rule.numberFrom k l) = some m) :
    id - k < l.length ∧ m = Rule.numberFrom k (l.eraseIdx (id - k)) := by
  induction l generalizing k m with
  | nil => simp [Rule.numberFrom, Backend.deleteRule] at h
  | cons r rest ih =>
    simp only [Rule.numberFrom, Backend.deleteRule] at h
    split at h
    · rename_i hid
      obtain rfl : k = id := hid
      simp only [Option.some.injEq, Rule.map_pred_numberFrom] at h
      simp [h]
    · rename_i hid
      obtain ⟨m', hm', rfl⟩ := Option.map_eq_some_iff.1 h
      obtain ⟨hlt, rfl⟩ := ih (k := k + 1) (by omega) hm'
      rw [show id - k = (id - (k + 1)) + 1 by omega, List.eraseIdx_cons_succ, List.length_cons]
      exact ⟨by omega, rfl⟩

/-- The service deletes a rule of a chain by taking it out of the layout. -/
theorem deleteRule_rules {U : Layout} {id : Nat} {m : List Rule}
    (h : Backend.deleteRule id U.rules = some m) :
    id < U.length ∧ m = rules (U.eraseIdx id) := by
  obtain ⟨hlt, rfl⟩ := deleteRule_numberFrom (Nat.zero_le id) h
  rw [Nat.sub_zero, List.length_map] at hlt
  refine ⟨hlt, ?_⟩
  rw [rules, Nat.sub_zero, List.eraseIdx_map]

structure Thinned (q : Test) (U V : Layout) : Prop where
  sublist : V.Sublist U
  rest : (V.filter fun e => !passes q e) = U.filter fun e => !passes q e

namespace Thinned

variable {q q' : Test} {U V W : Layout}

theorem refl (q : Test) (U : Layout) : Thinned q U U := ⟨.refl _, rfl⟩

theorem trans (h : Thinned q U V) (h' : Thinned q V W) : Thinned q U W :=
  ⟨h'.sublist.trans h.sublist, h'.rest.trans h.rest⟩

/-- A layout without entries of a test can be told by a wider test. -/
theorem mono (h : Thinned q U V) (hq : ∀ e, passes q e = true → passes q' e = true) :
    Thinned q' U V := by
  refine ⟨h.sublist, ?_⟩
  have widen (L : Layout) : (L.filter fun e => !passes q' e) =
      (L.filter fun e => !passes q e).filter fun e => !passes q' e := by
    rw [List.filter_filter]
    refine List.filter_congr fun e _ => ?_
    by_cases he : passes q e = true
    · simp [he, hq e he]
    · simp [he]
  rw [widen V, widen U, h.rest]

/-- If no entry of the test is left, just those are gone. -/
theorem eq_of_none (h : Thinned q U V) (hV : V.filter (passes q) = []) :
    V = U.filter fun e => !passes q e := by
  rw [← h.rest, eq_comm, List.filter_eq_self]
  intro e he
  have hne : ¬passes q e = true := fun hq => by
    have hmem := List.mem_filter.2 ⟨he, hq⟩
    rw [hV] at hmem
    cases hmem
  simpa using hne

end Thinned

/-- Taking out one entry of a test thins the layout by it. -/
theorem thinned_eraseIdx {q : Test} {U : Layout} {i : Nat} {e : Option String × Rule}
    (h : U[i]? = some e) (hq : passes q e = true) :
    Thinned q U (U.eraseIdx i) ∧
      ((U.eraseIdx i).filter (passes q)).length + 1 = (U.filter (passes q)).length := by
  obtain ⟨hlt, rfl⟩ := List.getElem?_eq_some_iff.1 h
  have hsplit (p : Option String × Rule → Bool) :
      U.filter p = (U.take i).filter p ++ (U[i] :: U.drop (i + 1)).filter p := by
    rw [← List.filter_append]
    simp
  refine ⟨⟨List.eraseIdx_sublist _ _, ?_⟩, ?_⟩
  · rw [List.eraseIdx_eq_take_drop_succ, hsplit, List.filter_append,
      List.filter_cons_of_neg (by simp [hq])]
  · rw [List.eraseIdx_eq_take_drop_succ, hsplit, List.filter_append, List.filter_cons_of_pos hq,
      List.length_append, List.length_append, List.length_cons, Nat.add_assoc]

end Layout

end PodFirewall
