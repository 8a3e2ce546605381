import Mathlib.Algebra.Group.Nat.Defs
import PodFirewall.Proofs.Firewall.Evaluation
import PodFirewall.Proofs.Policy.Directions

/-!
How the records of a policy follow one another. The records of a direction are
made of the entries of its rules, which are counted through: the count is the
priority of a record, and its name is made of the number of its rule and of the
count. So names are never used twice, the order of evaluation is the order of
the rules, and the record for the exceptions of a block comes right in front of
the one for the block.
-/

namespace PodFirewall

variable {α β : Type}

/-- Whether every element of a list that passes a test is directly followed by one
that it is related to. -/
def Followed (P : α → Prop) (R : α → α → Prop) (l : List α) : Prop :=
  ∀ (k : Nat) (a : α), l[k]? = some a → P a → ∃ b, l[k + 1]? = some b ∧ R a b

namespace Followed

variable {P : α → Prop} {R : α → α → Prop} {l m : List α}

theorem of_none (h : ∀ a ∈ l, ¬P a) : Followed P R l := fun _ a ha hP =>
  absurd hP (h a (List.mem_of_getElem? ha))

theorem append (hl : Followed P R l) (hm : Followed P R m) : Followed P R (l ++ m) := by
  intro k a ha hP
  rcases Nat.lt_or_ge k l.length with hk | hk
  · rw [List.getElem?_append_left hk] at ha
    obtain ⟨b, hb, hR⟩ := hl k a ha hP
    have hk' : k + 1 < l.length := (List.getElem?_eq_some_iff.1 hb).1
    exact ⟨b, by rw [List.getElem?_append_left hk', hb], hR⟩
  · rw [List.getElem?_append_right hk] at ha
    obtain ⟨b, hb, hR⟩ := hm _ a ha hP
    refine ⟨b, ?_, hR⟩
    rw [List.getElem?_append_right (by omega), ← hb]
    congr 1
    omega

theorem flatMap {xs : List β} {f : β → List α} (h : ∀ x ∈ xs, Followed P R (f x)) :
    Followed P R (xs.flatMap f) := by
  induction xs with
  | nil => exact of_none (by simp)
  | cons x xs ih =>
    rw [List.flatMap_cons]
    exact (h x List.mem_cons_self).append (ih fun y hy => h y (List.mem_cons_of_mem x hy))

end Followed

namespace Record

/-! ### Counting entries -/

def numberedEntries (rules : List (List Entry)) : List (Nat × Entry) :=
  rules.zipIdx.flatMap fun r => r.1.map fun e => (r.2, e)

def ofEntries (h : Header) (d : Direction) (entries : List (Nat × Entry)) : List Record :=
  entries.zipIdx.map fun e => ofEntry h d e.1.1 e.2 e.1.2

def Ascending (entries : List (Nat × Entry)) : Prop := entries.Pairwise fun a b => a.1 ≤ b.1

theorem ascending_numberedEntries (rules : List (List Entry)) :
    Ascending (numberedEntries rules) := by
  refine List.pairwise_flatMap.2 ⟨fun r _ => ?_, ?_⟩
  · exact List.pairwise_map.2 (List.pairwise_of_forall fun _ _ => Nat.le_refl _)
  · refine List.pairwise_iff_getElem.2 fun i j hi hj hij x hx y hy => ?_
    obtain ⟨e, -, rfl⟩ := List.mem_map.1 hx
    obtain ⟨e', -, rfl⟩ := List.mem_map.1 hy
    simpa using Nat.le_of_lt hij

/-- The records of a direction are made of the entries of its rules, or of the
entry that does nothing. -/
theorem ofRules_eq (h : Header) (d : Direction) (rules : List (List Entry)) :
    ofRules h d rules = ofEntries h d [(0, nothing)] ∨
      ofRules h d rules = ofEntries h d (numberedEntries rules) := by
  unfold ofRules
  dsimp only
  split
  · exact .inl rfl
  · exact .inr rfl

def At (r : Record) (rule number : Nat) : Prop :=
  r.name = nameAt r.parent.dialect r.parent.name r.direction rule number

section

variable {h : Header} {d : Direction} {entries : List (Nat × Entry)} {r : Record} {k : Nat}

theorem at_ofEntry (h : Header) (d : Direction) (rule number : Nat) (e : Entry) :
    (ofEntry h d rule number e).At rule number := rfl

theorem At.inj {rule rule' number number' : Nat} (hr : r.At rule number)
    (hr' : r.At rule' number') : rule = rule' ∧ number = number' :=
  (nameAt_inj (Eq.trans (Eq.symm hr) hr')).2.2.2

theorem getElem?_ofEntries (h : Header) (d : Direction) (entries : List (Nat × Entry)) (k : Nat) :
    (ofEntries h d entries)[k]? = entries[k]?.map fun e => ofEntry h d e.1 k e.2 := by
  rw [ofEntries, List.getElem?_map, List.getElem?_zipIdx, Option.map_map, Nat.zero_add]
  rfl

theorem getElem?_ofEntries_eq_some (hr : (ofEntries h d entries)[k]? = some r) :
    ∃ e, entries[k]? = some e ∧ r = ofEntry h d e.1 k e.2 := by
  rw [getElem?_ofEntries, Option.map_eq_some_iff] at hr
  obtain ⟨e, he, hr⟩ := hr
  exact ⟨e, he, hr.symm⟩

/-- What holds of the records of entries in turn, from the entries and the
counts. -/
theorem pairwise_ofEntries {R : Record → Record → Prop}
    (hR : ∀ i j (a b : Nat × Entry), i < j → entries[i]? = some a → entries[j]? = some b →
      R (ofEntry h d a.1 i a.2) (ofEntry h d b.1 j b.2)) :
    (ofEntries h d entries).Pairwise R := by
  refine List.pairwise_iff_getElem.2 fun i j hi hj hij => ?_
  obtain ⟨a, ha, hia⟩ := getElem?_ofEntries_eq_some (List.getElem?_eq_getElem hi)
  obtain ⟨b, hb, hjb⟩ := getElem?_ofEntries_eq_some (List.getElem?_eq_getElem hj)
  rw [hia, hjb]
  exact hR i j a b hij ha hb

theorem numbered_ofEntries (h : Header) (d : Direction) (entries : List (Nat × Entry)) :
    Numbered h d (ofEntries h d entries) := by
  intro r hr
  obtain ⟨k, hk⟩ := List.getElem?_of_mem hr
  obtain ⟨e, -, rfl⟩ := getElem?_ofEntries_eq_some hk
  exact ⟨e.1, k, e.2, rfl, hk⟩

theorem names_ofEntries (h : Header) (d : Direction) (entries : List (Nat × Entry)) :
    ((ofEntries h d entries).map (·.name)).Nodup := by
  refine List.pairwise_map.2 (pairwise_ofEntries fun i j a b hij _ _ hname => ?_)
  exact Nat.ne_of_lt hij (nameAt_inj hname).2.2.2.2

theorem priorities_ofEntries (h : Header) (d : Direction) (entries : List (Nat × Entry)) :
    (ofEntries h d entries).map (·.priority) =
      (List.range (ofEntries h d entries).length).map Int.ofNat := by
  refine List.ext_getElem (by simp) fun k hk _ => ?_
  rw [List.length_map] at hk
  obtain ⟨e, -, he⟩ := getElem?_ofEntries_eq_some (List.getElem?_eq_getElem hk)
  rw [List.getElem_map, he, List.getElem_map, List.getElem_range]
  rfl

/-- Priorities of as many records as 32 bits can count are numbers of 32 bits. -/
theorem toInt_priority_of_mem_ofEntries (hlength : (ofEntries h d entries).length ≤ 2 ^ 31)
    (hr : r ∈ ofEntries h d entries) : (Int32.ofInt r.priority).toInt = r.priority := by
  obtain ⟨k, hk⟩ := List.getElem?_of_mem hr
  have hlt : k < 2 ^ 31 := Nat.lt_of_lt_of_le (List.getElem?_eq_some_iff.1 hk).1 hlength
  obtain ⟨e, -, rfl⟩ := getElem?_ofEntries_eq_some hk
  have hpriority : (ofEntry h d e.1 k e.2).priority = (k : Int) := rfl
  rw [hpriority]
  exact Int32.toInt_ofInt_of_le (by omega) (by omega)

/-- Among the records of one header the count decides on the order. -/
theorem le_orderKey_ofEntry (h : Header) (d : Direction) (rule rule' : Nat) {i j : Nat}
    (e e' : Entry) (hij : i ≤ j) :
    (ofEntry h d rule i e).orderKey.le (ofEntry h d rule' j e').orderKey = true := by
  have hcompare : compare (ofEntry h d rule i e).orderKey (ofEntry h d rule' j e').orderKey =
      (compare h.parent.priority h.parent.priority).then ((compare h.created h.created).then
        ((compare (h.parent.dialect.name ++ ":" ++ h.parent.name)
          (h.parent.dialect.name ++ ":" ++ h.parent.name)).then (compare (i : Int) (j : Int)))) :=
    rfl
  rw [OrderKey.le, hcompare, Std.ReflOrd.compare_self, Std.ReflOrd.compare_self,
    Std.ReflOrd.compare_self]
  exact Int.isLE_compare.2 (Int.ofNat_le.2 hij)

theorem inOrder_ofEntries (h : Header) (d : Direction) (entries : List (Nat × Entry)) :
    (ofEntries h d entries).Pairwise fun a b => a.orderKey.le b.orderKey = true :=
  pairwise_ofEntries fun _ _ _ _ hij _ _ => le_orderKey_ofEntry h d _ _ _ _ (Nat.le_of_lt hij)

/-- A list of the same records in the order of evaluation is the same list. -/
theorem eq_ofEntries_of_inOrder {sorted : List Record} (hperm : sorted.Perm (ofEntries h d entries))
    (hsorted : sorted.Pairwise fun a b => a.orderKey.le b.orderKey = true) :
    sorted = ofEntries h d entries := by
  refine hperm.eq_of_pairwise (fun a b ha hb hab hba => ?_) hsorted (inOrder_ofEntries h d entries)
  have hkey : a.priority = b.priority :=
    congrArg OrderKey.priority (OrderKey.le_antisymm hab hba)
  obtain ⟨i, hi⟩ := List.getElem?_of_mem (hperm.mem_iff.1 ha)
  obtain ⟨j, hj⟩ := List.getElem?_of_mem hb
  obtain ⟨e, he, rfl⟩ := getElem?_ofEntries_eq_some hi
  obtain ⟨e', he', rfl⟩ := getElem?_ofEntries_eq_some hj
  obtain rfl : i = j := Int.ofNat.inj hkey
  rw [Option.some.inj (he.symm.trans he')]

theorem ascending_ofEntries (hentries : Ascending entries) :
    (ofEntries h d entries).Pairwise fun a b => ∀ i j m n, a.At i m → b.At j n → i ≤ j := by
  refine pairwise_ofEntries fun k l a b hkl ha hb i j m n hi hj => ?_
  obtain ⟨rfl, -⟩ := hi.inj (at_ofEntry h d a.1 k a.2)
  obtain ⟨rfl, -⟩ := hj.inj (at_ofEntry h d b.1 l b.2)
  obtain ⟨hk, rfl⟩ := List.getElem?_eq_some_iff.1 ha
  obtain ⟨hl, rfl⟩ := List.getElem?_eq_some_iff.1 hb
  exact List.pairwise_iff_getElem.1 hentries k l hk hl hkl

theorem followed_ofEntries {P : Record → Prop} {R : Record → Record → Prop}
    {Q : Nat × Entry → Prop} {S : Nat × Entry → Nat × Entry → Prop}
    (hentries : Followed Q S entries)
    (hP : ∀ e k, P (ofEntry h d e.1 k e.2) → Q e)
    (hR : ∀ a b k, S a b → R (ofEntry h d a.1 k a.2) (ofEntry h d b.1 (k + 1) b.2)) :
    Followed P R (ofEntries h d entries) := by
  intro k r hr hPr
  obtain ⟨e, he, rfl⟩ := getElem?_ofEntries_eq_some hr
  obtain ⟨f, hf, hS⟩ := hentries k e he (hP e k hPr)
  exact ⟨_, by rw [getElem?_ofEntries, hf, Option.map_some], hR e f k hS⟩

end

/-! ### The records of a policy -/

/-- Records of different directions are told apart by the letter in their
names. -/
theorem names_flatMap (h : Header) (entries : Direction → List (Nat × Entry)) :
    ((Direction.all.flatMap fun d => ofEntries h d (entries d)).map (·.name)).Nodup := by
  have hsplit : (Direction.all.flatMap fun d => ofEntries h d (entries d)) =
      ofEntries h .incoming (entries .incoming) ++ ofEntries h .outgoing (entries .outgoing) := by
    simp [Direction.all]
  rw [hsplit, List.map_append]
  refine List.nodup_append.2 ⟨names_ofEntries _ _ _, names_ofEntries _ _ _, fun a ha b hb hab => ?_⟩
  obtain ⟨r, hr, rfl⟩ := List.mem_map.1 ha
  obtain ⟨r', hr', rfl⟩ := List.mem_map.1 hb
  obtain ⟨rule, number, e, rfl, -⟩ := numbered_ofEntries h .incoming _ r hr
  obtain ⟨rule', number', e', rfl, -⟩ := numbered_ofEntries h .outgoing _ r' hr'
  exact absurd (nameAt_inj hab).2.2.1 (by decide)

/-- How the records of a policy follow one another. -/
structure Sequenced (rs : List Record) : Prop where
  names : (rs.map (·.name)).Nodup
  priorities : ∀ d,
    (toward d rs).map (·.priority) = (List.range (toward d rs).length).map Int.ofNat
  /-- As many records as 32 bits can count have priorities of 32 bits. -/
  fits : ∀ d, (toward d rs).length ≤ 2 ^ 31 →
    ∀ r ∈ toward d rs, (Int32.ofInt r.priority).toInt = r.priority
  inOrder : ∀ d sorted, sorted.Perm (toward d rs) →
    ((sorted.Pairwise fun a b => a.orderKey.le b.orderKey = true) ↔ sorted = toward d rs)
  places : ∀ d k (r : Record), (toward d rs)[k]? = some r → ∃ rule, r.At rule k
  ascending : ∀ d, (toward d rs).Pairwise fun a b =>
    ∀ i j m n, a.At i m → b.At j n → i ≤ j

/-- What is listed direction by direction, made of entries in the order of their
rules. -/
theorem sequenced_flatMap {h : Header} {entries : Direction → List (Nat × Entry)}
    (hentries : ∀ d, Ascending (entries d)) :
    Sequenced (Direction.all.flatMap fun d => ofEntries h d (entries d)) := by
  have htoward (d : Direction) :
      toward d (Direction.all.flatMap fun d => ofEntries h d (entries d)) =
        ofEntries h d (entries d) := toward_flatMap (fun d => numbered_ofEntries h d _) d
  refine ⟨names_flatMap h entries, fun d => ?_, fun d hlength r hr => ?_,
    fun d sorted hperm => ?_, fun d k r hr => ?_, fun d => ?_⟩
  · rw [htoward]
    exact priorities_ofEntries h d _
  · rw [htoward] at hlength hr
    exact toInt_priority_of_mem_ofEntries hlength hr
  · rw [htoward] at hperm ⊢
    refine ⟨eq_ofEntries_of_inOrder hperm, ?_⟩
    rintro rfl
    exact inOrder_ofEntries h d _
  · rw [htoward] at hr
    obtain ⟨e, -, rfl⟩ := getElem?_ofEntries_eq_some hr
    exact ⟨e.1, at_ofEntry h d e.1 k e.2⟩
  · rw [htoward]
    exact ascending_ofEntries (hentries d)

end Record

/-! ### Standard policies -/

namespace NetworkPolicy

open Record (Entry ofEntry ofEntries numberedEntries Ascending)

/-- Whether an entry is for the exceptions of a block among the peers of a rule,
and another one for the block. -/
def PolicyRule.CarvesOut (rule : PolicyRule) (e f : Entry) : Prop :=
  ∃ s ∈ rule.peers, ∃ b, s.ipBlock = some b ∧
    e = ⟨.drop, some (.networks b.except), Rule.templates .drop (portMatches rule.ports)⟩ ∧
    f = ⟨.forward, some (.networks [b.cidr]), Rule.templates .forward (portMatches rule.ports)⟩

/-- Whether a record is for the exceptions of a block, and another one for the
block, both made from one rule of the policy with one set of templates. -/
structure Excepts (p : NetworkPolicy) (r f : Record) : Prop where
  action : f.action = .forward
  direction : f.direction = r.direction
  templates : r.templates.map (fun t => { t with action := .forward }) = f.templates
  block : ∃ i number rule s b, r.At i number ∧ f.At i (number + 1) ∧
    (p.body.rules r.direction)[i]? = some rule ∧ s ∈ rule.peers ∧ s.ipBlock = some b ∧
    r.peer = some (.networks b.except) ∧ f.peer = some (.networks [b.cidr])

theorem map_action_templates (action action' : RuleAction) (ports : List PortMatch) :
    (Rule.templates action ports).map (fun t => { t with action := action' }) =
      Rule.templates action' ports := by
  unfold Rule.templates Rule.expandPorts
  split
  · rfl
  · simp [Rule.withPorts]

/-- Only blocks have exceptions. -/
theorem block_of_except {s : PeerSelector} {ns : String} {except peer : Peer}
    (h : s.peers ns = .ok (some except, peer)) :
    ∃ b, s.ipBlock = some b ∧ except = .networks b.except ∧ peer = .networks [b.cidr] := by
  unfold PeerSelector.peers at h
  split at h
  · rename_i b hb
    unfold Peer.ofBlock at h
    split at h
    · cases h
    · rw [Except.ok.injEq, Prod.mk.injEq] at h
      obtain ⟨hexcept, rfl⟩ := h
      split at hexcept
      · cases hexcept
      · exact ⟨b, hb, (Option.some.inj hexcept).symm, rfl⟩
  · rcases hs : Peer.ofSelectors s.pods s.namespaces ns with e | found
    · rw [hs] at h
      cases h
    · rw [hs] at h
      simp [Except.map] at h

theorem followed_entries (rule : PolicyRule) (ns : String) :
    Followed (fun e => e.action = .drop) rule.CarvesOut (rule.entries ns) := by
  unfold PolicyRule.entries
  dsimp only
  split
  · exact .of_none (by simp)
  · split
    · exact .of_none (by simp)
    · refine .flatMap fun s hs => ?_
      unfold PeerSelector.entries
      split
      · exact .of_none (by simp)
      · rename_i except peer hpeers
        rcases except with _ | except
        · exact .of_none (by simp)
        · obtain ⟨b, hb, rfl, rfl⟩ := block_of_except hpeers
          -- two entries: the first one drops, the second one is the one behind it
          rintro (_ | _ | k) e he haction
          · exact ⟨_, rfl, s, hs, b, hb, (Option.some.inj he).symm, rfl⟩
          · obtain rfl := Option.some.inj he
            cases haction
          · cases he

/-- The records of a direction are made of entries in the order of the rules,
and an entry for exceptions is followed by the one for their block. -/
theorem directionRecords_eq (p : NetworkPolicy) (head : Record.Header) (d : Direction) :
    ∃ entries, directionRecords p head d = ofEntries head d entries ∧ Ascending entries ∧
      Followed (fun e => e.2.action = .drop)
        (fun e f => f.1 = e.1 ∧ ∃ rule, (p.body.rules d)[e.1]? = some rule ∧ rule.CarvesOut e.2 f.2)
        entries := by
  unfold directionRecords
  split
  · rcases Record.ofRules_eq head d
        ((p.body.rules d).map fun r => r.entries head.subject.namespaceName) with heq | heq
    · exact ⟨_, heq, List.pairwise_singleton _ _, .of_none (by simp [Record.nothing])⟩
    · refine ⟨_, heq, Record.ascending_numberedEntries _, .flatMap fun r hr => ?_⟩
      have hrule := List.mem_zipIdx_iff_getElem?.1 hr
      rw [List.getElem?_map, Option.map_eq_some_iff] at hrule
      obtain ⟨rule, hrule, hentries⟩ := hrule
      intro k e he haction
      rw [List.getElem?_map, Option.map_eq_some_iff] at he
      obtain ⟨e, he, rfl⟩ := he
      rw [← hentries] at he ⊢
      obtain ⟨f, hf, hexcepts⟩ := followed_entries rule _ k e he haction
      exact ⟨(r.2, f), by rw [List.getElem?_map, hf, Option.map_some], rfl, rule, hrule, hexcepts⟩
  · exact ⟨[], rfl, .nil, .of_none (by simp)⟩

/-- The record for the exceptions of a block is directly followed by the one for
the block. -/
theorem followed_directionRecords (p : NetworkPolicy) (head : Record.Header) (d : Direction) :
    Followed (fun r => r.action = .drop) (Excepts p) (directionRecords p head d) := by
  obtain ⟨entries, heq, -, hfollowed⟩ := directionRecords_eq p head d
  rw [heq]
  refine Record.followed_ofEntries hfollowed (fun _ _ haction => haction) ?_
  rintro ⟨i, e⟩ ⟨j, f⟩ number ⟨hij, rule, hrule, s, hs, b, hb, rfl, rfl⟩
  obtain rfl : i = j := hij.symm
  exact ⟨rfl, rfl, map_action_templates _ _ _,
    i, number, rule, s, b, rfl, rfl, hrule, hs, hb, rfl, rfl⟩

end NetworkPolicy

/-! ### Polycube policies -/

theorem PolycubePolicy.directionRecords_eq (head : Record.Header) (ports : List PortMatch)
    (d : Direction) (rules : DirectionRules) :
    ∃ entries, PolycubePolicy.directionRecords head ports d rules =
        Record.ofEntries head d entries ∧ Record.Ascending entries := by
  unfold PolycubePolicy.directionRecords
  split
  · exact ⟨[(0, _)], rfl, List.pairwise_singleton _ _⟩
  · split
    · exact ⟨[(0, _)], rfl, List.pairwise_singleton _ _⟩
    · split
      · exact ⟨[], rfl, .nil⟩
      · rcases Record.ofRules_eq head d
            (rules.rules.map fun r => r.entries head.subject.namespaceName ports) with heq | heq
        · exact ⟨_, heq, List.pairwise_singleton _ _⟩
        · exact ⟨_, heq, Record.ascending_numberedEntries _⟩

/-! ### Policies of either dialect -/

namespace Policy

theorem records_entries {p : Policy} {service : Option Service} {rs : List Record}
    (h : p.records service = .ok rs) :
    ∃ (head : Record.Header) (entries : Direction → List (Nat × Record.Entry)),
      rs = Direction.all.flatMap (fun d => Record.ofEntries head d (entries d)) ∧
        ∀ d, Record.Ascending (entries d) := by
  cases p with
  | k8s p =>
    obtain ⟨head, -, rfl⟩ := NetworkPolicy.records_ok h
    choose entries heq hascending _ using NetworkPolicy.directionRecords_eq p head
    exact ⟨head, entries, congrArg Direction.all.flatMap (funext heq), hascending⟩
  | pcn p =>
    obtain ⟨ns, found, -, -, rfl⟩ := PolycubePolicy.records_ok h
    choose entries heq hascending using fun d => PolycubePolicy.directionRecords_eq
      (PolycubePolicy.headerFor p found.1) found.2 d (p.body.spec.rules d)
    exact ⟨_, entries, congrArg Direction.all.flatMap (funext heq), hascending⟩

/-- The records of a policy are told apart by their names, their order is that of
their priorities and of their rules, and those for exceptions come right in front
of what they except from. -/
theorem records_sequenced {p : Policy} {service : Option Service} {rs : List Record}
    (h : p.records service = .ok rs) :
    Record.Sequenced rs ∧
      ∀ q, p = .k8s q → Followed (fun r => r.action = .drop) (NetworkPolicy.Excepts q) rs := by
  refine ⟨?_, ?_⟩
  · obtain ⟨head, entries, rfl, hascending⟩ := records_entries h
    exact Record.sequenced_flatMap hascending
  · rintro q rfl
    obtain ⟨head, -, rfl⟩ := NetworkPolicy.records_ok h
    exact .flatMap fun d _ => NetworkPolicy.followed_directionRecords q head d

/-- A policy with a block that has an exception, behind a rule whose port cannot
be expressed. -/
def excepting : NetworkPolicy :=
  ⟨⟨some "p", some "n", ∅, none, none, false⟩,
    ⟨⟨∅, false⟩, [],
      [⟨[], [⟨none, some (.name "http"), none⟩]⟩,
        ⟨[⟨some ⟨"10.0.0.0/8", ["10.1.0.0/16"]⟩, none, none⟩], []⟩], []⟩⟩

theorem records_sequenced_excepting :
    ∃ rs, (Policy.k8s excepting).records none = .ok rs ∧
      rs.map (fun r => (r.name, r.action)) =
        [("k8s:p#1ip0", .drop), ("k8s:p#1ip1", .forward)] ∧
      (Record.Sequenced rs ∧ ∀ q, Policy.k8s excepting = .k8s q →
        Followed (fun r => r.action = .drop) (NetworkPolicy.Excepts q) rs) :=
  ⟨_, rfl, by decide +kernel,
    records_sequenced (show (Policy.k8s excepting).records none = .ok _ from rfl)⟩

end Policy

end PodFirewall
