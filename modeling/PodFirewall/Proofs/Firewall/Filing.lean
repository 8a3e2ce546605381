import PodFirewall.Proofs.Firewall.Evaluation
import PodFirewall.Proofs.Firewall.Exactness

/-!
Chains that are filed: behind the rules that were there at first, a chain holds
the rules of the first so many applied records, in the order of evaluation. As
long as no deletion fails every operation keeps the chains filed. An operation
that succeeds in applying a record makes the chain of its direction complete.
-/

namespace PodFirewall

namespace Layout

/-- The entries of a layout, of whose rules only what they match and do counts. -/
def tags (U : Layout) : Layout := U.map fun e => (e.1, e.2.body)

@[simp] theorem tags_append (U V : Layout) : tags (U ++ V) = U.tags ++ V.tags :=
  List.map_append

theorem tags_filter {f : Option String × Rule → Bool} (hf : ∀ e, f (e.1, e.2.body) = f e)
    (U : Layout) : tags (U.filter f) = U.tags.filter f := by
  rw [tags, tags, List.filter_map]
  congr 1
  exact List.filter_congr fun e _ => (hf e).symm

@[simp] theorem body_body (r : Rule) : r.body.body = r.body := rfl

theorem map_body_of_tags {U V : Layout} (h : U.tags = V.tags) :
    (U.map fun e => e.2.body) = V.map fun e => e.2.body := by
  have hmap := congrArg (List.map Prod.snd) h
  simpa [tags, Function.comp_def] using hmap

end Layout

namespace Site

open Layout (tags)

theorem filter_entriesOf (p : String → Bool) (entries : List Applied) :
    ((entriesOf entries).filter fun e => !e.1.any p) =
      entriesOf (entries.filter fun a => !p a.record.name) := by
  induction entries with
  | nil => rfl
  | cons a rest ih =>
    rw [entriesOf_cons, List.filter_append, ih, List.filter_cons]
    split
    · rename_i hkeep
      rw [entriesOf_cons, List.filter_eq_self.2]
      intro e he
      obtain ⟨r, -, rfl⟩ := List.mem_map.1 he
      simpa using hkeep
    · rename_i hdrop
      rw [List.filter_eq_nil_iff.2, List.nil_append]
      intro e he
      obtain ⟨r, -, rfl⟩ := List.mem_map.1 he
      simpa using hdrop

def InSync (L : Layout) (a : Applied) : Prop :=
  tags (L.filter (Layout.passes (Layout.ofName a.record.name))) = tags (entriesOf [a])

/-- What a layout holds behind what was there at first: the entries of the first
so many applied records, or of all of them. -/
def Filed (left : Layout) (entries : List Applied) (all : Prop) (L : Layout) : Prop :=
  ∃ k, tags L = tags left ++ tags (entriesOf (entries.take k)) ∧ (all → entries.length ≤ k)

section Filing

variable {left L : Layout} {entries : List Applied} {all : Prop}

/-- Taking out names leaves the entries of the other names. -/
theorem tags_filter_names (p : String → Bool) (hleft : ∀ e ∈ left, e.1 = none)
    (h : tags L = tags left ++ tags (entriesOf entries)) :
    tags (L.filter fun e => !e.1.any p) =
      tags left ++ tags (entriesOf (entries.filter fun a => !p a.record.name)) := by
  have hkeep : (left.filter fun e => !e.1.any p) = left :=
    List.filter_eq_self.2 fun e he => by simp [hleft e he]
  have htags (U : Layout) : tags (U.filter fun e => !e.1.any p) =
      (tags U).filter fun e => !e.1.any p := Layout.tags_filter (fun _ => rfl) U
  rw [htags, h, List.filter_append, ← htags, hkeep, ← htags, filter_entriesOf]

theorem Filed.retire (h : Filed left entries all L) (hleft : ∀ e ∈ left, e.1 = none)
    (p : String → Bool) :
    Filed left (entries.filter fun a => !p a.record.name) all (L.filter fun e => !e.1.any p) := by
  obtain ⟨k, hL, hall⟩ := h
  have hsplit : (entries.filter fun a => !p a.record.name) =
      ((entries.take k).filter fun a => !p a.record.name) ++
        (entries.drop k).filter fun a => !p a.record.name := by
    rw [← List.filter_append, List.take_append_drop]
  refine ⟨((entries.take k).filter fun a => !p a.record.name).length, ?_, fun ha => ?_⟩
  · rw [tags_filter_names p hleft hL, hsplit, List.take_left]
  · rw [List.take_of_length_le (hall ha)]

/-- A record that is in sync although none of its entries was filed has no
rules. -/
theorem rules_eq_nil {k : Nat} (hL : tags L = tags left ++ tags (entriesOf (entries.take k)))
    (hleft : ∀ e ∈ left, e.1 = none) (hdistinct : Distinct entries) {a : Applied}
    (ha : a ∈ entries.drop k) (hsync : InSync L a) : a.rules = [] := by
  have hnone : tags (L.filter (Layout.passes (Layout.ofName a.record.name))) = [] := by
    have htags (U : Layout) : tags (U.filter (Layout.passes (Layout.ofName a.record.name))) =
        (tags U).filter (Layout.passes (Layout.ofName a.record.name)) :=
      Layout.tags_filter (fun _ => rfl) U
    have hnew : (left.filter (Layout.passes (Layout.ofName a.record.name))) = [] :=
      List.filter_eq_nil_iff.2 fun e he => by simp [hleft e he]
    have hold : ((entriesOf (entries.take k)).filter
        (Layout.passes (Layout.ofName a.record.name))) = [] := by
      refine List.filter_eq_nil_iff.2 fun e he => ?_
      obtain ⟨b, hb, r, -, rfl⟩ := mem_entriesOf.1 he
      rw [← List.take_append_drop k entries] at hdistinct
      simpa using (List.pairwise_append.1 hdistinct).2.2 b hb a ha
    rw [htags, hL, List.filter_append, ← htags, hnew, ← htags, hold]
    rfl
  have hrules : tags (entriesOf [a]) = [] := hsync.symm.trans hnone
  simpa [tags, entriesOf] using hrules

theorem entriesOf_eq_nil {rest : List Applied} (h : ∀ a ∈ rest, a.rules = []) :
    entriesOf rest = [] := by
  rw [entriesOf, List.flatMap_eq_nil_iff]
  intro a ha
  rw [h a ha, List.map_nil]

/-- If the first records are in sync, taking out the names of the others leaves
just the entries of the first ones. -/
theorem Filed.cut (h : Filed left entries all L) (hleft : ∀ e ∈ left, e.1 = none)
    (hdistinct : Distinct entries) {n : Nat} (hsync : ∀ a ∈ entries.take n, InSync L a)
    {p : String → Bool} (hstay : ∀ a ∈ entries.take n, p a.record.name = false)
    (hgo : ∀ a ∈ entries.drop n, p a.record.name = true) :
    tags (L.filter fun e => !e.1.any p) = tags left ++ tags (entriesOf (entries.take n)) := by
  obtain ⟨k, hL, -⟩ := h
  have hkept : ((entries.take k).filter fun a => !p a.record.name) = (entries.take n).take k := by
    have hsplit : entries.take k =
        (entries.take n).take k ++ (entries.drop n).take (k - (entries.take n).length) := by
      rw [← List.take_append, List.take_append_drop]
    rw [hsplit, List.filter_append, List.filter_eq_self.2, List.filter_eq_nil_iff.2,
      List.append_nil]
    · intro a ha
      simp [hgo a (List.mem_of_mem_take ha)]
    · intro a ha
      simp [hstay a (List.mem_of_mem_take ha)]
  -- records that are in sync without being filed have no rules, so they can be counted in
  have hrest : entriesOf ((entries.take n).drop k) = [] := by
    refine entriesOf_eq_nil fun a ha => ?_
    have hdrop : a ∈ entries.drop k := by
      rw [List.drop_take] at ha
      exact List.mem_of_mem_take ha
    exact rules_eq_nil hL hleft hdistinct hdrop (hsync a (List.mem_of_mem_drop ha))
  have hall : entriesOf (entries.take n) = entriesOf ((entries.take n).take k) := by
    conv_lhs => rw [← List.take_append_drop k (entries.take n)]
    rw [entriesOf_append, hrest, List.append_nil]
  rw [tags_filter_names p hleft hL, hkept, hall]

/-- If all records are in sync, they are all filed. -/
theorem Filed.complete (h : Filed left entries all L) (hleft : ∀ e ∈ left, e.1 = none)
    (hdistinct : Distinct entries) (hsync : ∀ a ∈ entries, InSync L a) :
    tags L = tags left ++ tags (entriesOf entries) := by
  have hcut := h.cut hleft hdistinct (n := entries.length) (p := fun _ => false)
    (by rw [List.take_length]; exact hsync) (fun _ _ => rfl) (by simp)
  rw [List.take_length] at hcut
  simpa using hcut

end Filing

/-! ### Shrinking a record -/

theorem sublist_of_isSubsequence {small big : List Rule}
    (h : Ledger.isSubsequence small big = true) :
    (small.map Rule.body).Sublist (big.map Rule.body) := by
  induction small generalizing big with
  | nil => exact List.nil_sublist _
  | cons r small ih =>
    rw [Ledger.isSubsequence] at h
    split at h
    · cases h
    · rename_i b rest hdrop
      have hsub : ((b :: rest).map Rule.body).Sublist (big.map Rule.body) := by
        rw [← hdrop]
        exact (List.dropWhile_sublist _).map _
      have hb : b.sameMatch r = true := by
        have hhead := List.head?_dropWhile_not (fun b : Rule => !b.sameMatch r) big
        rw [hdrop] at hhead
        simpa using hhead
      rw [List.map_cons, ← (Rule.sameMatch_iff b r).1 hb]
      exact ((ih h).cons_cons _).trans hsub

theorem filter_mem_eq {α : Type} [DecidableEq α] {l m : List α} (h : l.Sublist m)
    (hm : m.Nodup) : (m.filter fun x => decide (x ∈ l)) = l := by
  -- both lists are what is left of a list when the same members are kept
  have hself : (l.filter fun x => decide (x ∈ l)) = l :=
    List.filter_eq_self.2 fun x hx => by simpa using hx
  have hsub : l.Sublist (m.filter fun x => decide (x ∈ l)) := by
    have hfiltered := h.filter fun x => decide (x ∈ l)
    rwa [hself] at hfiltered
  have hmem : (m.filter fun x => decide (x ∈ l)) ⊆ l := fun x hx => by
    simpa using (List.mem_filter.1 hx).2
  exact (hsub.eq_of_length_le (List.Nodup.length_le_of_subset (hm.filter _) hmem)).symm

/-- Of rules without twins, those that a part of them asks for are that part. -/
theorem map_body_filter {small big : List Rule} (h : Ledger.isSubsequence small big = true)
    (htwins : big.Pairwise fun r r' => r.sameMatch r' = false) :
    (big.filter fun r => small.any fun x => x.sameMatch r).map Rule.body =
      small.map Rule.body := by
  have hnodup : (big.map Rule.body).Nodup := by
    rw [List.Nodup, List.pairwise_map]
    exact htwins.imp fun hne heq => by
      rw [(Rule.sameMatch_iff _ _).2 heq] at hne
      cases hne
  rw [← filter_mem_eq (sublist_of_isSubsequence h) hnodup, List.filter_map]
  congr 1
  refine List.filter_congr fun r _ => ?_
  rw [Bool.eq_iff_iff]
  simp [Rule.sameMatch_iff]

section Shrinking

variable {left L : Layout} {pre post : List Applied} {known : Applied} {record : Record}
  {rules : List Rule}

theorem filter_stale_of_ne {name : String} {entries : List Applied}
    (h : ∀ a ∈ entries, a.record.name ≠ name) :
    ((entriesOf entries).filter fun e => !Layout.passes (stale name rules) e) =
      entriesOf entries := by
  refine List.filter_eq_self.2 fun e he => ?_
  obtain ⟨a, ha, r, -, rfl⟩ := mem_entriesOf.1 he
  simp [Layout.passes, stale, h a ha]

/-- If all records are filed, deleting what one of them does not need any more
leaves it filed with its new rules. -/
theorem tags_filter_stale
    (hL : tags L = tags left ++ tags (entriesOf (pre ++ known :: post)))
    (hleft : ∀ e ∈ left, e.1 = none) (hdistinct : Distinct (pre ++ known :: post))
    (hname : known.record.name = record.name)
    (hsub : Ledger.isSubsequence rules known.rules = true)
    (htwins : known.rules.Pairwise fun r r' => r.sameMatch r' = false) :
    tags (L.filter fun e => !Layout.passes (stale record.name rules) e) =
      tags left ++ tags (entriesOf (pre ++ ⟨record, rules⟩ :: post)) := by
  obtain ⟨-, hknown, hpre⟩ := List.pairwise_append.1 hdistinct
  have hpre' : ∀ a ∈ pre, a.record.name ≠ record.name := fun a ha => by
    rw [← hname]
    exact hpre a ha known List.mem_cons_self
  have hpost : ∀ a ∈ post, a.record.name ≠ record.name := fun a ha => by
    rw [← hname]
    exact Ne.symm ((List.pairwise_cons.1 hknown).1 a ha)
  have hkeep : (left.filter fun e => !Layout.passes (stale record.name rules) e) = left :=
    List.filter_eq_self.2 fun e he => by simp [Layout.passes, stale, hleft e he]
  have htags (U : Layout) : tags (U.filter fun e => !Layout.passes (stale record.name rules) e) =
      (tags U).filter fun e => !Layout.passes (stale record.name rules) e :=
    Layout.tags_filter (fun _ => rfl) U
  -- of its own rules the record keeps those that the new ones ask for, in their order
  have hrecord : tags ((entriesOf [known]).filter fun e =>
      !Layout.passes (stale record.name rules) e) = tags (entriesOf [⟨record, rules⟩]) := by
    have hfilter : ((entriesOf [known]).filter fun e =>
        !Layout.passes (stale record.name rules) e) =
          (known.rules.filter fun r => rules.any fun x => x.sameMatch r).map fun r =>
            (some record.name, r) := by
      rw [entriesOf_cons, entriesOf_nil, List.append_nil, List.filter_map, hname]
      congr 1
      refine List.filter_congr fun r _ => ?_
      simp only [Layout.passes, stale, Function.comp_apply, beq_self_eq_true, Bool.true_and,
        Bool.not_not]
      rfl
    have hbodies := congrArg (List.map fun r => (some record.name, r)) (map_body_filter hsub htwins)
    rw [hfilter]
    simpa [tags, entriesOf, Function.comp_def] using hbodies
  rw [htags, hL, List.filter_append, ← htags, hkeep, ← htags]
  congr 1
  have hsplit (a : Applied) : entriesOf (pre ++ a :: post) =
      entriesOf pre ++ (entriesOf [a] ++ entriesOf post) := by
    rw [← entriesOf_append, ← entriesOf_append]
    rfl
  rw [hsplit, hsplit, List.filter_append, List.filter_append, filter_stale_of_ne hpre',
    filter_stale_of_ne hpost, Layout.tags_append, Layout.tags_append, hrecord,
    Layout.tags_append, Layout.tags_append]

end Shrinking

/-! ### Rebuilding a chain -/

theorem inSync_iff {l : Ledger} {U : PerDirection Layout} (h : l.Records U) (d : Direction)
    (a : Applied) : l.inSync d a = true ↔ InSync (U.get d) a := by
  have hbodies : ((l.recorded a.record.name d).map Rule.body) =
      ((U.get d).filter (Layout.passes (Layout.ofName a.record.name))).map fun e => e.2.body := by
    rw [h.recorded, Layout.map_body_chosen]
  have hfiltered : tags ((U.get d).filter (Layout.passes (Layout.ofName a.record.name))) =
      ((l.recorded a.record.name d).map Rule.body).map fun r => (some a.record.name, r) := by
    rw [hbodies, tags, List.map_map]
    refine List.map_congr_left fun e he => ?_
    have hname := (List.mem_filter.1 he).2
    rw [Layout.passes_ofName, beq_iff_eq] at hname
    rw [hname]
    rfl
  have hentries : tags (entriesOf [a]) =
      (a.rules.map Rule.body).map fun r => (some a.record.name, r) := by
    simp [tags, entriesOf, Function.comp_def]
  rw [Ledger.inSync, Ledger.sameRules_iff, InSync, hfiltered, hentries]
  constructor
  · exact fun heq => by rw [heq]
  · intro heq
    have hsnd := congrArg (List.map Prod.snd) heq
    simpa [Function.comp_def] using hsnd

theorem rebuildStart_le (l : Ledger) (record : Record) (rules : List Rule) :
    rebuildStart l record rules ≤ (place (l.applied.get record.direction) record rules).start := by
  unfold rebuildStart
  dsimp only
  split
  · exact Nat.min_le_left _ _
  · exact Nat.le_refl _

/-- In front of the place from which on a chain is built anew, all records are in
sync. -/
theorem inSync_of_mem_take (l : Ledger) (record : Record) (rules : List Rule) :
    ∀ a ∈ (place (l.applied.get record.direction) record rules).entries.take
        (rebuildStart l record rules), l.inSync record.direction a = true := by
  intro a ha
  unfold rebuildStart at ha
  dsimp only at ha
  split at ha
  · rename_i i hi
    rw [Ledger.firstOutOfSync] at hi
    obtain ⟨pre, x, post, hsplit, rfl, -, hpre⟩ := findIdx?_split hi
    rw [PerDirection.get_set_self] at hsplit
    rw [hsplit, List.take_append_of_le_length (Nat.min_le_right _ _)] at ha
    have hsync := hpre a (List.mem_of_mem_take ha)
    rw [Bool.not_eq_false'] at hsync
    exact hsync
  · rename_i hnone
    rw [Ledger.firstOutOfSync, List.findIdx?_eq_none_iff, PerDirection.get_set_self] at hnone
    have hsync := hnone a (List.mem_of_mem_take ha)
    rw [Bool.not_eq_false'] at hsync
    exact hsync

/-- From that place on, no name is lost by placing a record. -/
theorem exists_mem_drop_place {entries : List Applied} (h : Distinct entries) (record : Record)
    (rules : List Rule) {n : Nat} (hn : n ≤ (place entries record rules).start) :
    ∀ a ∈ entries.drop n,
      ∃ b ∈ (place entries record rules).entries.drop n, b.record.name = a.record.name := by
  intro a ha
  have hplaced : ∃ b ∈ (place entries record rules).entries, b.record.name = a.record.name := by
    rw [place_entries h record rules]
    by_cases hname : a.record.name = record.name
    · exact ⟨⟨record, rules⟩, (inserted_perm _ _).mem_iff.2 List.mem_cons_self, hname.symm⟩
    · refine ⟨a, (inserted_perm _ _).mem_iff.2 (List.mem_cons_of_mem _ ?_), rfl⟩
      exact List.mem_filter.2 ⟨List.mem_of_mem_drop ha, by simpa using hname⟩
  obtain ⟨b, hb, hname⟩ := hplaced
  rw [← List.take_append_drop n (place entries record rules).entries,
    take_place entries record rules hn] at hb
  refine ⟨b, (List.mem_append.1 hb).resolve_left fun hbefore => ?_, hname⟩
  rw [← List.take_append_drop n entries] at h
  exact (List.pairwise_append.1 h).2.2 b hbefore a ha hname

/-! ### Operations keep chains filed -/

theorem Filed.mono {left L : Layout} {entries : List Applied} {all all' : Prop}
    (h : Filed left entries all L) (himp : all' → all) : Filed left entries all' L := by
  obtain ⟨k, hL, hall⟩ := h
  exact ⟨k, hL, fun ha => hall (himp ha)⟩

variable {s : Site} {U left : PerDirection Layout} {wanted : List Applied}
  {dir : String → Direction} {all : Direction → Prop} {kind : Call → Bool}

def keptPart (l : Ledger) (record : Record) (rules : List Rule) : List Applied :=
  (l.applied.get record.direction).take (rebuildStart l record rules)

theorem keptPart_append (l : Ledger) (record : Record) (rules : List Rule) :
    keptPart l record rules ++ rebuiltPart l record rules =
      (place (l.applied.get record.direction) record rules).entries := by
  rw [keptPart, rebuiltPart, ← take_place _ record rules (rebuildStart_le l record rules),
    List.take_append_drop]

theorem keptPart_inSync (hU : s.Laid U) (record : Record) (rules : List Rule) :
    ∀ a ∈ keptPart s.ledger record rules, InSync (U.get record.direction) a := by
  intro a ha
  rw [keptPart, ← take_place _ record rules (rebuildStart_le _ record rules)] at ha
  exact (inSync_iff hU.records _ a).1 (inSync_of_mem_take s.ledger record rules a ha)

/-- Kept records are not rebuilt under their names. -/
theorem keptPart_ne (hmeets : s.ledger.Meets wanted) (hsound : Sound dir wanted) {record : Record}
    {rules : List Rule} (ho : (Operation.apply record rules).Proper dir) :
    ∀ a ∈ keptPart s.ledger record rules,
      ((rebuiltPart s.ledger record rules).map (·.record.name)).contains a.record.name = false := by
  intro a ha
  have hdistinct := (hmeets.place hsound ho.1 rules).distinct (hsound.demand ho) record.direction
  rw [PerDirection.get_set_self, ← keptPart_append] at hdistinct
  rw [Bool.eq_false_iff, ne_eq, List.contains_iff_mem]
  intro hmem
  obtain ⟨b, hb, hname⟩ := List.mem_map.1 hmem
  exact (List.pairwise_append.1 hdistinct).2.2 a ha b hb hname.symm

theorem rebuiltPart_direction (hmeets : s.ledger.Meets wanted) (hsound : Sound dir wanted)
    {record : Record} {rules : List Rule} (ho : (Operation.apply record rules).Proper dir) :
    ∀ a ∈ rebuiltPart s.ledger record rules, dir a.record.name = record.direction := by
  intro a ha
  have hmem : a ∈ (s.ledger.applied.set record.direction
      (place (s.ledger.applied.get record.direction) record rules).entries).get
        record.direction := by
    rw [PerDirection.get_set_self]
    exact List.mem_of_mem_drop ha
  obtain ⟨hwanted, hdirection⟩ := (hmeets.place hsound ho.1 rules).mem_wanted hmem
  rw [← hdirection]
  exact ((hsound.demand ho).direction a hwanted).symm

theorem filed_rebuild (hU : s.Laid U) (hleft : ∀ d, ∀ e ∈ left.get d, e.1 = none)
    (hmeets : s.ledger.Meets wanted) (hsound : Sound dir wanted) {record : Record}
    {rules : List Rule} (ho : (Operation.apply record rules).Proper dir)
    (hfiled : ∀ d, Filed (left.get d) (s.ledger.applied.get d) (all d) (U.get d))
    {V : PerDirection Layout} {k : Nat}
    (hV : Respliced record.direction (rebuiltPart s.ledger record rules) k U V) (d : Direction) :
    Filed (left.get d) ((s.ledger.applied.set record.direction
        (place (s.ledger.applied.get record.direction) record rules).entries).get d)
      ((rebuiltPart s.ledger record rules).length ≤ k ∧ (all d ∨ record.direction = d))
      (V.get d) := by
  obtain ⟨hself, hother⟩ := hV
  by_cases hd : d = record.direction
  · subst hd
    have hdistinct := hmeets.distinct hsound record.direction
    -- nothing but the kept records is left when the names of the rebuilt ones are taken out
    have hcut := (hfiled record.direction).cut (hleft record.direction) hdistinct
      (keptPart_inSync hU record rules) (keptPart_ne hmeets hsound ho) (fun a ha => by
        obtain ⟨b, hb, hname⟩ := exists_mem_drop_place hdistinct record rules
          (rebuildStart_le s.ledger record rules) a ha
        rw [List.contains_iff_mem, ← hname]
        exact List.mem_map_of_mem hb)
    refine ⟨(keptPart s.ledger record rules).length + k, ?_, fun hall => ?_⟩
    · rw [hself, PerDirection.get_set_self, ← keptPart_append, List.take_length_add_append,
        entriesOf_append, Layout.tags_append, Layout.tags_append, ← List.append_assoc]
      congr 1
    · rw [PerDirection.get_set_self, ← keptPart_append, List.length_append]
      exact Nat.add_le_add_left hall.1 _
  · rw [PerDirection.get_set_of_ne _ _ hd, hother d hd]
    have hretired := (hfiled d).retire (hleft d)
      ((rebuiltPart s.ledger record rules).map (·.record.name)).contains
    -- a name has one direction, so rebuilding takes no record out of the other one
    have hkeep : ((s.ledger.applied.get d).filter fun a =>
        !((rebuiltPart s.ledger record rules).map (·.record.name)).contains a.record.name) =
          s.ledger.applied.get d := by
      refine List.filter_eq_self.2 fun a ha => ?_
      rw [Bool.not_eq_true', Bool.eq_false_iff, ne_eq, List.contains_iff_mem]
      intro hmem
      obtain ⟨b, hb, hname⟩ := List.mem_map.1 hmem
      obtain ⟨hwanted, hdirection⟩ := hmeets.mem_wanted ha
      have hdir := rebuiltPart_direction hmeets hsound ho b hb
      rw [hname, ← hsound.direction a hwanted, hdirection] at hdir
      exact hd hdir
    rw [hkeep] at hretired
    exact hretired.mono fun h => h.2.resolve_right fun heq => hd heq.symm

/-- An operation whose work fails no deletion leaves the chains filed. -/
theorem filed_work (hkind : ∀ c id, kind (.delete c id) = true) (hU : s.Laid U)
    (hleft : ∀ d, ∀ e ∈ left.get d, e.1 = none)
    (hmeets : s.ledger.Meets wanted) (hsound : Sound dir wanted) {o : Operation}
    (ho : o.Proper dir)
    (hfiled : ∀ d, Filed (left.get d) (s.ledger.applied.get d) (all d) (U.get d))
    (hfine : (s.work o).2.backend.failures kind = s.backend.failures kind) :
    ∃ V, (s.work o).2.Laid V ∧ ∀ d, Filed (left.get d) ((s.work o).2.ledger.applied.get d)
      ((s.work o).1 = .ok () ∧ (all d ∨ o.appliesTo d)) (V.get d) := by
  have hfine' := Nat.not_lt_of_le (Nat.le_of_eq hfine)
  cases o with
  | cease name =>
    obtain ⟨V, hV, -, hgone⟩ := hU.work_cease name
    have hok := (failures_work_cease hkind s name).resolve_right hfine'
    refine ⟨V, hV, fun d => ?_⟩
    rw [applied_work_cease, hgone hok d, Ledger.retire, PerDirection.get_map]
    exact ((hfiled d).retire (hleft d) _).mono fun h => h.2.resolve_right id
  | ceaseParent dialect parent =>
    obtain ⟨V, hV, -, hgone⟩ := hU.work_ceaseParent dialect parent
    have hok := (failures_work_ceaseParent hkind s dialect parent).resolve_right hfine'
    refine ⟨V, hV, fun d => ?_⟩
    rw [applied_work_ceaseParent, hgone hok d, Ledger.retire, PerDirection.get_map]
    exact ((hfiled d).retire (hleft d) _).mono fun h => h.2.resolve_right id
  | apply record rules =>
    obtain ⟨V, hV, ⟨-, -, hlost⟩ | ⟨k, hspliced, hall⟩⟩ := hU.work_apply record rules
    · exact absurd (hlost kind hkind) hfine'
    · refine ⟨V, hV, fun d => ?_⟩
      rw [applied_work_apply]
      exact (filed_rebuild hU hleft hmeets hsound ho hfiled hspliced d).mono fun h =>
        ⟨hall h.1, h.2⟩

theorem inSync_of_firstOutOfSync {l : Ledger} {d : Direction} (h : l.firstOutOfSync d = none) :
    ∀ a ∈ l.applied.get d, l.inSync d a = true := by
  intro a ha
  have hsync := List.findIdx?_eq_none_iff.1 h a ha
  rwa [Bool.not_eq_false'] at hsync

/-- A record that is shrunk has no rules left that it does not need, and all
others are in sync. -/
theorem filed_shrink (hU : s.Laid U) (hleft : ∀ d, ∀ e ∈ left.get d, e.1 = none)
    (hmeets : s.ledger.Meets wanted) (hsound : Sound dir wanted) {record : Record}
    {rules : List Rule} {i : Nat} (hi : shrinkable? s.ledger record rules = some i)
    (hfiled : ∀ d, Filed (left.get d) (s.ledger.applied.get d) (all d) (U.get d))
    (hok : (s.shrink i record rules).1 = .ok ()) :
    ∃ V, (s.shrink i record rules).2.Laid V ∧ ∀ d, Filed (left.get d)
      ((s.shrink i record rules).2.ledger.applied.get d) (all d ∨ record.direction = d)
      (V.get d) := by
  obtain ⟨V, hV, hthin, hgone⟩ := hU.shrink i record rules
  refine ⟨_, hV, fun d => ?_⟩
  rw [(worked_shrink s i record rules).applied]
  by_cases hd : d = record.direction
  · subst hd
    obtain ⟨pre, known, post, hsplit, rfl, hname, -, hsub, hsync⟩ := shrinkable_cases hi
    have hdistinct := hmeets.distinct hsound record.direction
    have hcomplete := (hfiled record.direction).complete (hleft _) hdistinct fun a ha =>
      (inSync_iff hU.records _ a).1 (inSync_of_firstOutOfSync hsync a ha)
    have hknown : known ∈ s.ledger.applied.get record.direction := by simp [hsplit]
    have htwins := hsound.noTwins known (hmeets.mem_wanted hknown).1
    rw [hsplit] at hdistinct hcomplete
    have htags := tags_filter_stale hcomplete (hleft _) hdistinct hname hsub htwins
    rw [PerDirection.get_modify_self, PerDirection.get_set_self, hthin.eq_of_none (hgone hok),
      hsplit, set_split]
    exact ⟨_, by rw [htags, List.take_length], fun _ => Nat.le_refl _⟩
  · rw [PerDirection.get_modify_of_ne _ _ hd, PerDirection.get_set_of_ne _ _ hd]
    exact (hfiled d).mono fun h => h.resolve_right fun heq => hd heq.symm

theorem filed_step (hkind : ∀ c id, kind (.delete c id) = true) (hU : s.Laid U)
    (hleft : ∀ d, ∀ e ∈ left.get d, e.1 = none)
    (hmeets : s.ledger.Meets wanted) (hsound : Sound dir wanted) {o : Operation}
    (ho : o.Proper dir)
    (hfiled : ∀ d, Filed (left.get d) (s.ledger.applied.get d) (all d) (U.get d))
    (hfine : (s.step o).2.backend.failures kind = s.backend.failures kind) :
    ∃ V, (s.step o).2.Laid V ∧ ∀ d, Filed (left.get d) ((s.step o).2.ledger.applied.get d)
      ((s.step o).1 = .ok () ∧ (all d ∨ o.appliesTo d)) (V.get d) := by
  have hchecked := hU.checkAlive
  obtain ⟨b, ⟨e, hdead, hstep⟩ |
    ⟨halive, ⟨record, rules, i, rfl, hquiet, hok, hstep⟩ | ⟨hworked, hstep⟩⟩⟩ :=
      step_cases_of_fine hkind s o hfine
  · rw [hdead] at hchecked
    rw [hstep]
    exact ⟨U, hchecked, fun d => (hfiled d).mono fun h => nomatch h.1⟩
  · rw [halive] at hchecked
    rw [hstep]
    obtain ⟨V, hV, hV'⟩ := filed_shrink hchecked hleft hmeets hsound hquiet hfiled hok
    exact ⟨V, hV, fun d => (hV' d).mono fun h => h.2⟩
  · rw [halive] at hchecked
    rw [hstep]
    obtain ⟨V, hV, hV'⟩ := filed_work hkind hchecked hleft hmeets hsound ho hfiled hworked
    refine ⟨V, hV.updateDefaults, fun d => ?_⟩
    rw [settle, (tuned_updateDefaults _).applied]
    exact (hV' d).mono fun h => ⟨(Outcome.both_eq_ok.1 h.1).1, h.2⟩

/-- Runs in which no deletion fails keep the chains filed, and in runs in which no
call fails they stay complete. -/
theorem filed_run {all : Prop} (hkind : ∀ c id, kind (.delete c id) = true)
    (hall : all → ∀ call, kind call = true) {ops : List Operation} (hU : s.Laid U)
    (hleft : ∀ d, ∀ e ∈ left.get d, e.1 = none)
    (hmeets : s.ledger.Meets wanted) (hsound : Sound dir wanted) (hops : ∀ o ∈ ops, o.Proper dir)
    (hfiled : ∀ d, Filed (left.get d) (s.ledger.applied.get d) all (U.get d))
    (hfine : (s.run ops).backend.failures kind = s.backend.failures kind) :
    ∃ V, (s.run ops).Laid V ∧
      ∀ d, Filed (left.get d) ((s.run ops).ledger.applied.get d) all (V.get d) := by
  induction ops generalizing s U wanted with
  | nil => exact ⟨U, hU, hfiled⟩
  | cons o rest ih =>
    obtain ⟨ho, hrest⟩ := List.forall_mem_cons.1 hops
    have hle := failures_le_step s o kind
    have hle' := failures_le_run (s.step o).2 rest kind
    have hrun : s.run (o :: rest) = (s.step o).2.run rest := rfl
    rw [hrun] at hfine ⊢
    have hstep : (s.step o).2.backend.failures kind = s.backend.failures kind := by omega
    obtain ⟨V, hV, hV'⟩ := filed_step hkind hU hleft hmeets hsound ho hfiled hstep
    have hmeets' := meets_step hmeets hsound ho
    refine ih hV hmeets' (sound_heard hsound s ho) hrest
      (fun d => (hV' d).mono fun ha => ⟨?_, .inl ha⟩) (by omega)
    exact (failures_step (hall ha) hU o).resolve_right
      (Nat.not_lt_of_le (Nat.le_of_eq hstep))

/-- In runs in which no call fails all operations find the firewall. -/
theorem heard_eq (hkind : ∀ call, kind call = true) {ops : List Operation} (hU : s.Laid U)
    (hfine : (s.run ops).backend.failures kind = s.backend.failures kind) : heard s ops = ops := by
  induction ops generalizing s U with
  | nil => rfl
  | cons o rest ih =>
    have hle := failures_le_step s o kind
    have hle' := failures_le_run (s.step o).2 rest kind
    have hrun : s.run (o :: rest) = (s.step o).2.run rest := rfl
    rw [hrun] at hfine
    have hok : (s.step o).1 = .ok () :=
      (failures_step hkind hU o).resolve_right (Nat.not_lt_of_le (by omega))
    have halive : s.checkAlive.1.toBool = true := by rw [checkAlive_of_step_ok hok]; rfl
    obtain ⟨V, hV, -⟩ := hU.step o
    rw [heard, if_pos halive, ih hV (by omega)]

/-- What a filed layout says of the chain. -/
theorem Filed.sameRules {entries : List Applied} {found : List Rule} {d : Direction}
    (hU : s.Laid U) (h : Filed (Layout.strays found) entries True (U.get d)) :
    Ledger.sameRules (s.chain d) (found ++ entries.flatMap (·.rules)) = true := by
  obtain ⟨k, hL, hall⟩ := h
  rw [List.take_of_length_le (hall trivial), ← Layout.tags_append] at hL
  rw [Ledger.sameRules_iff, chain_eq hU.holds, Layout.map_body_rules,
    Layout.map_body_of_tags hL]
  simp [Layout.strays, entriesOf, List.map_flatMap, Function.comp_def]

theorem Created.filed (hs : s.Created) (d : Direction) :
    Filed (s.found.get d) (s.ledger.applied.get d) True (s.found.get d) := by
  obtain ⟨b, b', -, -, -, hledger⟩ := hs.cases
  have hnone : s.ledger.applied.get d = [] := by
    rw [hledger]
    cases d <;> rfl
  rw [hnone]
  exact ⟨0, by simp [tags], fun _ => Nat.le_refl _⟩

end Site

end PodFirewall
