import PodFirewall.Proofs.Firewall.Known
import PodFirewall.Proofs.Firewall.Sweep
import PodFirewall.Proofs.Policy.Naming

/-!
What a policy leaves behind when it is removed. Its rules are deleted one by one,
and each deletion that is done moves the rules behind it, also those that could
not be deleted before. `Site.Departed` compares a direction before and after: the
deletions that were tried are those of the rules recorded under the names of the
policy, and what stays in the chain stays recorded, under its old name and its
new number.
-/

namespace PodFirewall

namespace Ledger

theorem NoneBare.hasRules {l : Ledger} (h : l.NoneBare) {name : String}
    (hname : name ∈ l.rules.keys) : l.HasRules name := by
  rw [OrdMap.mem_keys, Option.isSome_iff_exists] at hname
  obtain ⟨p, hp⟩ := hname
  by_contra hnone
  have hempty (d : Direction) : p.get d = [] := by
    rw [← recorded_eq hp]
    by_contra hne
    exact hnone ⟨d, hne⟩
  have hbare : isBare p = true := by
    simpa [isBare, PerDirection.get] using And.intro (hempty .incoming) (hempty .outgoing)
  rw [h name p hp] at hbare
  cases hbare

/-- Whether all names that a ledger knows are those of places in policies whose
own names are without marks. -/
def WellNamed (l : Ledger) : Prop :=
  ∀ name, l.Knows name →
    ∃ dialect parent, '#' ∉ parent.toList ∧ Record.NamedOf dialect parent name

/-- Of the names that a ledger knows, the prefix tells the policy. -/
theorem WellNamed.namedOf_iff {l : Ledger} (h : l.WellNamed) {name : String}
    (hknown : l.Knows name) {dialect : Dialect} {parent : String} (hfree : '#' ∉ parent.toList) :
    Record.NamedOf dialect parent name ↔ Record.belongsTo dialect parent name = true := by
  obtain ⟨dialect', parent', hfree', hnamed⟩ := h name hknown
  exact ⟨fun hmine => hmine.belongsTo, hnamed.of_belongsTo hfree' hfree⟩

end Ledger

def Rule.placedIn (rules : List Rule) (r : Rule) : Rule := { r with id := rules.idxOf r }

namespace Layout

/-! ### Numbered layouts -/

@[simp] theorem numberedFrom_numberedFrom (k j : Nat) (U : Layout) :
    numberedFrom k (U.numberedFrom j) = U.numberedFrom k := by
  induction U generalizing k j with
  | nil => rfl
  | cons e rest ih => simp [numberedFrom, ih]

/-- In a layout without repetition, the number of an entry is the place of its
rule. -/
theorem numberedFrom_eq_map (V U : Layout) (h : ((V ++ U).map (·.2)).Nodup) :
    U.numberedFrom V.length = U.map fun e => (e.1, Rule.placedIn ((V ++ U).map (·.2)) e.2) := by
  induction U generalizing V with
  | nil => rfl
  | cons e rest ih =>
    have hsplit : V ++ e :: rest = (V ++ [e]) ++ rest := by simp
    have hrest := ih (V ++ [e]) (by rwa [← hsplit])
    rw [List.length_append, List.length_singleton, ← hsplit] at hrest
    have hplace : ((V ++ e :: rest).map (·.2)).idxOf e.2 = V.length := by
      rw [List.map_append, List.map_cons] at h ⊢
      have hnew : e.2 ∉ V.map (·.2) := fun hmem =>
        (List.nodup_append.1 h).2.2 e.2 hmem e.2 List.mem_cons_self rfl
      rw [List.idxOf_append_of_notMem hnew]
      simp
    rw [numberedFrom, List.map_cons, hrest, Rule.placedIn, hplace]

theorem chosen_eq_map {U : Layout} (h : (U.map (·.2)).Nodup) (q : Test) :
    U.chosen q = ((U.filter (passes q)).map (·.2)).map (Rule.placedIn (U.map (·.2))) := by
  have hnumbered := numberedFrom_eq_map [] U h
  rw [chosen, ← List.length_nil (α := Option String × Rule), hnumbered, List.filter_map,
    List.map_map, List.map_map]
  rfl

def numbered (U : PerDirection Layout) : PerDirection Layout :=
  ⟨U.incoming.numberedFrom 0, U.outgoing.numberedFrom 0⟩

@[simp] theorem get_numbered (U : PerDirection Layout) (d : Direction) :
    (numbered U).get d = (U.get d).numberedFrom 0 := by cases d <;> rfl

theorem nodup_numbered (U : PerDirection Layout) (d : Direction) :
    (((numbered U).get d).map (·.2)).Nodup := by
  rw [get_numbered, map_snd_numberedFrom]
  refine List.Nodup.of_map (·.id) ?_
  rw [Rule.map_id_numberFrom]
  exact List.nodup_range'

def ofParent (dialect : Dialect) (parent : String) : Test :=
  fun n _ => n.any (Record.belongsTo dialect parent)

@[simp] theorem passes_ofParent (dialect : Dialect) (parent : String) (e : Option String × Rule) :
    passes (ofParent dialect parent) e = e.1.any (Record.belongsTo dialect parent) := rfl

end Layout

namespace Site

variable {s s₀ : Site} {U : PerDirection Layout}
  {t : PerDirection (Sweep (Option String × Rule))}

theorem Laid.numbered (hU : s.Laid U) : s.Laid (Layout.numbered U) := by
  obtain ⟨⟨fw, hfw, hrules⟩, hrecords⟩ := hU
  refine ⟨⟨fw, hfw, fun d => ?_⟩, fun name d => ?_, hrecords.noneBare⟩
  · rw [hrules, Layout.get_numbered, Layout.rules, Layout.rules, Layout.map_snd_numberedFrom,
      Rule.numberFrom_numberFrom]
  · rw [hrecords.recorded, Layout.get_numbered, Layout.chosen, Layout.chosen,
      Layout.numberedFrom_numberedFrom]

/-! ### Removing a policy tries just its entries -/

namespace Follows

/-- What is followed depends on no other part of the ledger. -/
theorem of_rules (h : Follows s₀ U s t) {l : Ledger} (hl : l.rules = s.ledger.rules) :
    Follows s₀ U { s with ledger := l } t :=
  ⟨h.name, h.calls, h.laid.of_rules hl⟩

theorem checkAlive (h : Follows s₀ U s t) : Follows s₀ U s.checkAlive.2 t := by
  unfold Site.checkAlive Backend.find
  rcases hfind : s.backend.perform s.name .find with ⟨e | ⟨⟨⟩⟩, b⟩
  · exact h.perform hfind nofun rfl
  · dsimp only
    cases b.firewalls.contains s.name <;> exact h.perform hfind nofun rfl

theorem updateDefault (h : Follows s₀ U s t) (d : Direction) :
    Follows s₀ U (s.updateDefault d).2 t := by
  rcases updateDefault_cases s d with ⟨-, hstep⟩ | ⟨-, ⟨e, b, hset, hstep⟩ | ⟨b, hset, hcommit⟩⟩
  · rw [hstep]
    exact h
  · rw [hstep]
    exact h.perform hset nofun rfl
  · have hb := h.perform hset nofun rfl
    rcases hcommit with ⟨e, b', hcommit, hstep⟩ | ⟨b', hcommit, hstep⟩
    · rw [hstep]
      exact hb.perform hcommit nofun rfl
    · rw [hstep]
      exact (hb.perform hcommit nofun rfl).of_rules rfl

theorem updateDefaults (h : Follows s₀ U s t) : Follows s₀ U s.updateDefaults.2 t :=
  (h.updateDefault .incoming).updateDefault .outgoing

end Follows

theorem ceaseParent_eq (halive : s.checkAlive.1 = .ok ()) (dialect : Dialect) (parent : String) :
    ∃ b, s.checkAlive = (.ok (), { s with backend := b }) ∧
      s.ceaseParent dialect parent =
        settle (work { s with backend := b } (.ceaseParent dialect parent)) := by
  obtain ⟨b, -, ⟨e, hdead, -⟩ | ⟨hok, ⟨record, rules, i, ho, -⟩ | ⟨-, hstep⟩⟩⟩ :=
    step_cases s (.ceaseParent dialect parent)
  · rw [hdead] at halive
    cases halive
  · cases ho
  · exact ⟨b, hok, hstep⟩

theorem applied_ceaseParent (halive : s.checkAlive.1 = .ok ()) (dialect : Dialect)
    (parent : String) :
    (s.ceaseParent dialect parent).2.ledger.applied =
      (s.ledger.retire (Record.belongsTo dialect parent)).applied := by
  obtain ⟨b, -, hstep⟩ := ceaseParent_eq halive dialect parent
  rw [hstep, settle, (tuned_updateDefaults _).applied, applied_work_ceaseParent]

theorem Laid.ceaseParent (hU : s.Laid U) (halive : s.checkAlive.1 = .ok ()) (dialect : Dialect)
    (parent : String) :
    ∃ t, Follows s U (s.ceaseParent dialect parent).2 t ∧
      ∀ d, (t.get d).tried.Perm
        ((U.get d).filter (Layout.passes (Layout.ofParent dialect parent))) := by
  obtain ⟨b, hok, hstep⟩ := ceaseParent_eq halive dialect parent
  obtain ⟨t₀, hstart, hnone⟩ := Follows.start hU
  have hchecked := hstart.checkAlive
  rw [hok] at hchecked
  have hretired := hchecked.of_rules (l := s.ledger.retire (Record.belongsTo dialect parent)) rfl
  have hnames : ([] ++ s.ledger.rules.keys.filter (Record.belongsTo dialect parent)).Nodup :=
    (OrdMap.nodup_keys _).filter _
  have hpast (d : Direction) : (t₀.get d).tried.Perm
      ((U.get d).filter (Layout.passes (Layout.ofNames []))) := by
    rw [hnone, List.filter_eq_nil_iff.2 fun e _ => by cases hn : e.1 <;> simp [hn]]
  obtain ⟨t, ht, htried⟩ := hretired.ceaseEach hnames hpast (.ok ())
  refine ⟨t, hstep ▸ ht.updateDefaults, fun d => (htried d).trans ?_⟩
  -- every name in a layout has a record, so no entry is overlooked
  refine .of_eq (List.filter_congr fun e he => ?_)
  cases hn : e.1 with
  | none => simp [hn]
  | some name => simp [hn, hU.records.mem_keys he hn]

/-! ### One direction before and after -/

section Entries

variable {N : Layout} {v : Sweep (Option String × Rule)} {dialect : Dialect} {parent : String}

/-- Rules of other names are left in their order. -/
theorem filter_rest_of_ne (hparts : v.Parts N)
    (htried : v.tried.Perm (N.filter (Layout.passes (Layout.ofParent dialect parent))))
    {name : String}
    (hother : ∀ e ∈ N, e.1 = some name → Layout.passes (Layout.ofParent dialect parent) e = false) :
    v.rest.filter (Layout.passes (Layout.ofName name)) =
      N.filter (Layout.passes (Layout.ofName name)) := by
  refine hparts.filter_eq fun e he => ?_
  obtain ⟨hmem, hmine⟩ := List.mem_filter.1 (htried.subset (List.mem_append_left _ he))
  rw [Layout.passes_ofName, beq_eq_false_iff_ne]
  intro hname
  rw [hother e hmem hname] at hmine
  cases hmine

/-- Rules of the policy are left as far as they could not be deleted. -/
theorem filter_rest_of_belongsTo (hN : (N.map (·.2)).Nodup) (hparts : v.Parts N)
    (htried : v.tried.Perm (N.filter (Layout.passes (Layout.ofParent dialect parent))))
    {name : String} (hname : Record.belongsTo dialect parent name = true) :
    (v.rest.filter (Layout.passes (Layout.ofName name))).map (·.2) =
      ((N.filter (Layout.passes (Layout.ofName name))).map (·.2)).filter
        (· ∈ (v.map (·.2)).failed) := by
  have hnodup := hN.of_map
  have hapart : v.tried.Nodup := htried.nodup_iff.2 (hnodup.filter _)
  have hmine {e : Option String × Rule} (he : e ∈ N) (hn : e.1 = some name) :
      e ∉ v.gone ↔ e.2 ∈ (v.map (·.2)).failed := by
    have hall : e ∈ v.gone ++ v.failed :=
      htried.symm.subset (List.mem_filter.2 ⟨he, by simp [hn, hname]⟩)
    constructor
    · intro hgone
      exact List.mem_map_of_mem ((List.mem_append.1 hall).resolve_left hgone)
    · intro hfailed hgone
      obtain ⟨e', he', heq⟩ := List.mem_map.1 hfailed
      have hin : e' ∈ N :=
        (List.mem_filter.1 (htried.subset (List.mem_append_right _ he'))).1
      obtain rfl := List.inj_on_of_nodup_map hN hin he heq
      exact (List.nodup_append.1 hapart).2.2 e' hgone e' he' rfl
  rw [hparts.rest_eq hnodup, List.filter_map, List.filter_filter, List.filter_filter]
  congr 1
  refine List.filter_congr fun e he => ?_
  by_cases hn : e.1 = some name
  · simp [hn, hmine he hn]
  · simp [beq_eq_false_iff_ne.2 hn]

end Entries

/-- Whether a direction went from one state to another as it should when the
rules under some names are deleted: the deletions that were tried in the chain
were of just these rules, and what could not be deleted stays where it is, with
its number as of now. -/
structure Departed (s s' : Site) (mine : String → Prop) (d : Direction) (v : Sweep Rule) :
    Prop where
  chain : s'.chain d = Rule.numberFrom 0 v.rest
  rest : v.rest = (s.chain d).filter (· ∉ v.gone)
  tried : ∀ r, r ∈ v.tried ↔ ∃ name, mine name ∧ r ∈ s.ledger.recorded name d
  once : v.tried.Nodup
  left : ∀ name, mine name → s'.ledger.recorded name d =
    ((s.ledger.recorded name d).filter (· ∈ v.failed)).map (Rule.placedIn v.rest)
  others : ∀ name, ¬mine name → s'.ledger.recorded name d =
    (s.ledger.recorded name d).map (Rule.placedIn v.rest)

theorem Laid.chain_numbered (hU : s.Laid U) (d : Direction) :
    s.chain d = ((Layout.numbered U).get d).map (·.2) := by
  rw [chain_eq hU.holds, Layout.get_numbered, Layout.map_snd_numberedFrom, Layout.rules]

theorem Laid.recorded_numbered (hU : s.Laid U) (name : String) (d : Direction) :
    s.ledger.recorded name d =
      (((Layout.numbered U).get d).filter (Layout.passes (Layout.ofName name))).map (·.2) := by
  rw [hU.records.recorded, Layout.get_numbered, Layout.chosen]

/-- A layout that is left of a numbered one gives the rules their places in it. -/
theorem Follows.recorded {s' : Site} (h : Follows s (Layout.numbered U) s' t) (name : String)
    (d : Direction) :
    s'.ledger.recorded name d =
      (((t.get d).rest.filter (Layout.passes (Layout.ofName name))).map (·.2)).map
        (Rule.placedIn ((t.get d).rest.map (·.2))) := by
  rw [h.laid.records.recorded, get_lefts]
  refine Layout.chosen_eq_map ?_ _
  exact (Layout.nodup_numbered U d).sublist ((h.parts d).sublist.map _)

theorem Follows.departed {s' : Site} {dialect : Dialect} {parent : String}
    (h : Follows s (Layout.numbered U) s' t) (hU : s.Laid U)
    (htried : ∀ d, (t.get d).tried.Perm
      (((Layout.numbered U).get d).filter (Layout.passes (Layout.ofParent dialect parent))))
    (hnamed : s.ledger.WellNamed) (hfree : '#' ∉ parent.toList) (d : Direction) :
    s.Departed s' (Record.NamedOf dialect parent) d ((t.get d).map (·.2)) := by
  have hnodup := Layout.nodup_numbered U d
  -- the names in the layout are those of the ledger, for which the prefix is a test
  have hmine {e : Option String × Rule} (he : e ∈ (Layout.numbered U).get d) {name : String}
      (hn : e.1 = some name) :
      Record.NamedOf dialect parent name ↔ Record.belongsTo dialect parent name = true :=
    hnamed.namedOf_iff (.inl ⟨d, hU.numbered.records.recorded_ne_nil he hn⟩) hfree
  refine ⟨?_, ?_, fun r => ?_, ?_, fun name hname => ?_, fun name hname => ?_⟩
  · rw [chain_eq h.laid.holds, get_lefts, Layout.rules]
    rfl
  · have hparts := (h.parts d).map (·.2)
    rw [hU.chain_numbered]
    exact hparts.rest_eq hnodup
  · rw [Sweep.tried_map, List.mem_map]
    constructor
    · rintro ⟨e, he, rfl⟩
      obtain ⟨hmem, hbelongs⟩ := List.mem_filter.1 ((htried d).subset he)
      rw [Layout.passes_ofParent, Option.any_eq_true] at hbelongs
      obtain ⟨name, hn, hbelongs⟩ := hbelongs
      refine ⟨name, (hmine hmem hn).2 hbelongs, ?_⟩
      rw [hU.recorded_numbered]
      exact List.mem_map_of_mem (List.mem_filter.2 ⟨hmem, by simp [hn]⟩)
    · rintro ⟨name, hname, hr⟩
      rw [hU.recorded_numbered, List.mem_map] at hr
      obtain ⟨e, he, rfl⟩ := hr
      obtain ⟨hmem, hn⟩ := List.mem_filter.1 he
      rw [Layout.passes_ofName, beq_iff_eq] at hn
      exact ⟨e, (htried d).symm.subset
        (List.mem_filter.2 ⟨hmem, by simp [hn, hname.belongsTo]⟩), rfl⟩
  · rw [Sweep.tried_map]
    exact ((htried d).map _).nodup_iff.2 (hnodup.sublist (List.filter_sublist.map _))
  · rw [h.recorded, filter_rest_of_belongsTo hnodup (h.parts d) (htried d) hname.belongsTo,
      ← hU.recorded_numbered]
    rfl
  · rw [h.recorded, filter_rest_of_ne (h.parts d) (htried d), ← hU.recorded_numbered]
    · rfl
    · intro e he hn
      rw [Layout.passes_ofParent, hn, Option.any_some, ← Bool.not_eq_true, ← hmine he hn]
      exact hname

/-- A record stays applied unless it has a name of the policy. -/
theorem mem_applied_ceaseParent (halive : s.checkAlive.1 = .ok ()) (hnamed : s.ledger.WellNamed)
    (dialect : Dialect) {parent : String} (hfree : '#' ∉ parent.toList) (d : Direction)
    (a : Applied) :
    a ∈ (s.ceaseParent dialect parent).2.ledger.applied.get d ↔
      a ∈ s.ledger.applied.get d ∧ ¬Record.NamedOf dialect parent a.record.name := by
  rw [applied_ceaseParent halive, Ledger.retire, PerDirection.get_map, List.mem_filter]
  refine and_congr_right fun ha => ?_
  rw [hnamed.namedOf_iff (.inr ⟨d, a, ha, rfl⟩) hfree]
  simp

/-- If no deletion failed, no name of the policy is known any more. -/
theorem not_knows_of_departed {s' : Site} {dialect : Dialect} {parent : String}
    {v : Direction → Sweep Rule} (hnamed : s.ledger.WellNamed) (hfree : '#' ∉ parent.toList)
    (hdeparted : ∀ d, s.Departed s' (Record.NamedOf dialect parent) d (v d))
    (hfailed : ∀ d, (v d).failed = [])
    (happlied : ∀ d a, a ∈ s'.ledger.applied.get d ↔
      a ∈ s.ledger.applied.get d ∧ ¬Record.NamedOf dialect parent a.record.name)
    {name : String} (hbelongs : Record.belongsTo dialect parent name = true) :
    ¬s'.ledger.Knows name := by
  have hmine (hknown : s.ledger.Knows name) : Record.NamedOf dialect parent name :=
    (hnamed.namedOf_iff hknown hfree).2 hbelongs
  rintro (⟨d, hrules⟩ | ⟨d, a, ha, rfl⟩)
  · by_cases hname : Record.NamedOf dialect parent name
    · rw [(hdeparted d).left name hname, hfailed] at hrules
      simp at hrules
    · rw [(hdeparted d).others name hname] at hrules
      have hbefore : s.ledger.recorded name d ≠ [] := fun hnone => hrules (by rw [hnone]; rfl)
      exact hname (hmine (.inl ⟨d, hbefore⟩))
  · obtain ⟨hbefore, hother⟩ := (happlied d a).1 ha
    exact hother (hmine (.inr ⟨d, a, hbefore, rfl⟩))

theorem implements_eq_false {s : Site} (hbare : s.ledger.NoneBare) {dialect : Dialect}
    {parent : String}
    (h : ∀ name, Record.belongsTo dialect parent name = true → ¬s.ledger.Knows name) :
    s.implements dialect parent = false := by
  rw [Deployed.implements, Bool.or_eq_false_iff, List.any_eq_false, List.any_eq_false]
  constructor
  · exact fun name hkey hbelongs => h name hbelongs (.inl (hbare.hasRules hkey))
  · intro record hrecord hbelongs
    obtain ⟨d, -, hrecord⟩ := List.mem_flatMap.1 hrecord
    obtain ⟨a, ha, rfl⟩ := List.mem_map.1 hrecord
    exact h _ hbelongs (.inr ⟨d, a, ha, rfl⟩)

/-- Removing a policy from a firewall that is found removes exactly its rules.
Whatever happened to the firewall before and whichever deletions fail, the
deletions in the log are of the rules recorded under names of the policy, both
chains lose those that were done and keep all else in order, and just what failed
is still recorded for the policy. If no deletion failed, nothing of the policy is
left. -/
theorem departed_of_ceaseParent {s₀ : Site} (hs : s₀.Created) (commands : List Command)
    {dialect : Dialect} {parent : String} (hfree : '#' ∉ parent.toList)
    (hnamed : (s₀.obeyAll commands).ledger.WellNamed)
    (halive : (s₀.obeyAll commands).checkAlive.1 = .ok ()) :
    let s := s₀.obeyAll commands
    let s' := (s.ceaseParent dialect parent).2
    let mine := Record.NamedOf dialect parent
    (∀ d a, a ∈ s'.ledger.applied.get d ↔
        a ∈ s.ledger.applied.get d ∧ ¬mine a.record.name) ∧
      ∃ calls, s'.backend.log = calls ++ s.backend.log ∧
        (∀ d, s.Departed s' mine d (.replay s.name d.chain (s.chain d) calls)) ∧
        ((∀ e ∈ calls, e.call.deletes = true → e.done = true) →
          s'.implements dialect parent = false) := by
  intro s s' mine
  obtain ⟨hlaid, -⟩ := hs.laid
  obtain ⟨U, hU, -⟩ := hlaid.obeyAll commands
  obtain ⟨t, ht, htried⟩ := hU.numbered.ceaseParent halive dialect parent
  obtain ⟨calls, hlog, hreplay⟩ := ht.calls
  have happlied := mem_applied_ceaseParent halive hnamed dialect hfree
  have hdeparted (d : Direction) :
      s.Departed s' mine d (.replay s.name d.chain (s.chain d) calls) := by
    rw [hU.chain_numbered, Sweep.replay_map, ← hreplay]
    exact ht.departed hU htried hnamed hfree d
  refine ⟨happlied, calls, hlog, hdeparted, fun hdone => ?_⟩
  exact implements_eq_false ht.laid.records.noneBare fun name =>
    not_knows_of_departed hnamed hfree hdeparted (fun d => Sweep.failed_replay _ _ _ hdone) happlied

/-- A policy with two rules in front of another policy, the second of which cannot
be deleted: it moves up when the first one is. -/
theorem departed_but_for_refused :
    let own := Record.nameAt .k8s "p" .incoming 0 0
    let other := Record.nameAt .k8s "q" .incoming 0 0
    let forward : Rule := { Rule.blank with action := .forward }
    let s₀ := newborn { Backend.empty with
      faults := fun n _ _ => if n = 18 then some .refused else none }
    let s := s₀.obeyAll [.enforce own ⟨[Rule.blank, forward], [forward]⟩,
      .enforce other ⟨[Rule.blank], []⟩]
    let s' := (s.ceaseParent .k8s "p").2
    s₀.Created ∧ '#' ∉ "p".toList ∧ s.ledger.WellNamed ∧ s.checkAlive.1 = .ok () ∧
      s'.chain .incoming = [forward, { Rule.blank with id := 1 }] ∧
      s'.ledger.recorded own .incoming = [forward] ∧
      s'.ledger.recorded other .incoming = [{ Rule.blank with id := 1 }] ∧
      ∃ calls, s'.backend.log = calls ++ s.backend.log ∧ ∀ d,
        s.Departed s' (Record.NamedOf .k8s "p") d (.replay s.name d.chain (s.chain d) calls) := by
  intro own other forward s₀ s s'
  have hs : s₀.Created := newborn_created (.start _) rfl
  have hnamed : s.ledger.WellNamed := by
    have hkeys : s.ledger.rules.keys = [own, other] := by decide +kernel
    have happlied (d : Direction) : s.ledger.applied.get d = [] := by cases d <;> decide +kernel
    rintro name (hrules | ⟨d, a, ha, -⟩)
    · have hname := hrules.mem_keys
      rw [hkeys, List.mem_cons, List.mem_singleton] at hname
      rcases hname with rfl | rfl
      · exact ⟨.k8s, "p", by decide, .incoming, 0, 0, rfl⟩
      · exact ⟨.k8s, "q", by decide, .incoming, 0, 0, rfl⟩
    · rw [happlied] at ha
      cases ha
  have halive : s.checkAlive.1 = .ok () := by decide +kernel
  have hfree : '#' ∉ "p".toList := by decide
  obtain ⟨-, calls, hlog, hdeparted, -⟩ := departed_of_ceaseParent hs _ hfree hnamed halive
  refine ⟨hs, hfree, hnamed, halive, by decide +kernel, by decide +kernel, by decide +kernel,
    calls, ?_, hdeparted⟩
  -- with the states written out, the logs need not be evaluated to be the same
  simp only [s', s]
  exact hlog

end Site

end PodFirewall
