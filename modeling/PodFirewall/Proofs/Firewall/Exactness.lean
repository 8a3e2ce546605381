import Mathlib.Data.List.Nodup
import PodFirewall.Proofs.Firewall.Creation

/-!
The ledger is exact. Whatever is asked of a firewall and whatever fails, the
rules of its chains and the rules that the ledger records stay the same rules,
each recorded under one name. The invariant is that chains and ledger follow one
layout; each command keeps it, and no command makes a rule that belongs to no
name.
-/

namespace PodFirewall

namespace Layout

/-- Whether the entries of layouts stem from other layouts, but for some that
have allowed names. -/
def Stems (allowed : Direction → String → Prop) (U V : PerDirection Layout) : Prop :=
  ∀ d, ∀ e ∈ V.get d, e ∈ U.get d ∨ ∃ name, e.1 = some name ∧ allowed d name

namespace Stems

variable {allowed : Direction → String → Prop} {U V W : PerDirection Layout}

theorem refl (U : PerDirection Layout) : Stems allowed U U := fun _ _ he => .inl he

theorem trans (h : Stems allowed U V) (h' : Stems allowed V W) : Stems allowed U W := by
  intro d e he
  rcases h' d e he with he | hnew
  · exact h d e he
  · exact .inr hnew

theorem mono {allowed' : Direction → String → Prop} (h : Stems allowed U V)
    (himp : ∀ d name, allowed d name → allowed' d name) : Stems allowed' U V := by
  intro d e he
  rcases h d e he with he | ⟨name, hname, hallowed⟩
  · exact .inl he
  · exact .inr ⟨name, hname, himp d name hallowed⟩

theorem of_sublist (h : ∀ d, (V.get d).Sublist (U.get d)) : Stems allowed U V :=
  fun d _ he => .inl ((h d).subset he)

theorem set_sublist {d : Direction} {L : Layout} (h : L.Sublist (U.get d)) :
    Stems allowed U (U.set d L) := by
  refine of_sublist fun d' => ?_
  by_cases hd : d' = d
  · subst hd
    rw [PerDirection.get_set_self]
    exact h
  · rw [PerDirection.get_set_of_ne _ _ hd]

theorem set_append {d : Direction} {name : String} (rules : List Rule) (h : allowed d name) :
    Stems allowed U (U.set d (U.get d ++ rules.map fun r => (some name, r))) := by
  intro d' e he
  by_cases hd : d' = d
  · subst hd
    rw [PerDirection.get_set_self] at he
    rcases List.mem_append.1 he with he | he
    · exact .inl he
    · obtain ⟨r, -, rfl⟩ := List.mem_map.1 he
      exact .inr ⟨name, rfl, h⟩
  · rw [PerDirection.get_set_of_ne _ _ hd] at he
    exact .inl he

end Stems

end Layout

namespace Site

open Layout (Stems)

variable {s : Site} {U : PerDirection Layout}

def Named (l : Ledger) (d : Direction) (name : String) : Prop :=
  ∃ a ∈ l.applied.get d, a.record.name = name

/-! ### Every command keeps a layout -/

theorem Laid.work (hU : s.Laid U) (o : Operation) :
    ∃ V, (s.work o).2.Laid V ∧ Stems (Named (s.work o).2.ledger) U V := by
  cases o with
  | cease name =>
    obtain ⟨V, hV, hsub, -⟩ := hU.work_cease name
    exact ⟨V, hV, .of_sublist hsub⟩
  | ceaseParent dialect parent =>
    obtain ⟨V, hV, hsub, -⟩ := hU.work_ceaseParent dialect parent
    exact ⟨V, hV, .of_sublist hsub⟩
  | apply record rules =>
    obtain ⟨V, hV, ⟨-, hsub, -⟩ | ⟨k, ⟨hself, hother⟩, -⟩⟩ := hU.work_apply record rules
    · exact ⟨V, hV, .of_sublist hsub⟩
    · refine ⟨V, hV, fun d e he => ?_⟩
      by_cases hd : d = record.direction
      · subst hd
        rw [hself] at he
        rcases List.mem_append.1 he with he | he
        · exact .inl (List.mem_filter.1 he).1
        · -- only rebuilt records put entries into the layout, and they are applied
          obtain ⟨a, ha, r, -, rfl⟩ := mem_entriesOf.1 he
          refine .inr ⟨a.record.name, rfl, a, ?_, rfl⟩
          rw [applied_work_apply, PerDirection.get_set_self]
          exact List.mem_of_mem_drop (List.mem_of_mem_take ha)
      · rw [hother d hd] at he
        exact .inl (List.mem_filter.1 he).1

theorem Laid.step (hU : s.Laid U) (o : Operation) :
    ∃ V, (s.step o).2.Laid V ∧ Stems (Named (s.step o).2.ledger) U V := by
  have hchecked := hU.checkAlive
  obtain ⟨b, -, ⟨e, hdead, hstep⟩ | ⟨halive, ⟨record, rules, i, -, -, hstep⟩ | ⟨-, hstep⟩⟩⟩ :=
    step_cases s o
  · rw [hdead] at hchecked
    rw [hstep]
    exact ⟨U, hchecked, .refl U⟩
  · rw [halive] at hchecked
    rw [hstep]
    obtain ⟨V, hV, hthin, -⟩ := hchecked.shrink i record rules
    exact ⟨_, hV, .set_sublist hthin.sublist⟩
  · rw [halive] at hchecked
    rw [hstep]
    obtain ⟨V, hV, hstems⟩ := hchecked.work o
    refine ⟨V, hV.updateDefaults, ?_⟩
    rw [settle]
    unfold Named
    rw [(tuned_updateDefaults _).applied]
    exact hstems

def enrolled (l : Ledger) (name : String) (d : Direction) :
    Except BackendError (List Rule) → Ledger
  | .ok added => l.record name d added
  | .error _ => l

theorem Laid.enrolled {l : Ledger} (hU : Laid { s with ledger := l } U) (name : String)
    (d : Direction) (rules : List Rule) :
    ∃ V, Laid { (s.inject d rules).2 with
        ledger := Site.enrolled l name d (s.inject d rules).1 } V ∧ Stems (fun _ _ => True) U V := by
  rcases h : s.inject d rules with ⟨e | added, s'⟩
  · exact ⟨U, hU.inject_error h, .refl U⟩
  · exact ⟨_, hU.inject_ok h name, .set_append rules trivial⟩

/-- The ledger follows both chains only after both were tried. -/
theorem Laid.enforce (hU : s.Laid U) (name : String) (rules : PerDirection (List Rule)) :
    ∃ V, (s.enforce name rules).2.Laid V ∧ Stems (fun _ _ => True) U V := by
  have hchecked := hU.checkAlive
  unfold Site.enforce
  split
  · rename_i hdead
    rw [hdead] at hchecked
    exact ⟨U, hchecked, .refl U⟩
  · rename_i s₁ halive
    rw [halive] at hchecked
    obtain ⟨V, hV, hstems⟩ := hchecked.enrolled (l := s₁.ledger) name .incoming rules.incoming
    obtain ⟨W, hW, hstems'⟩ := hV.enrolled name .outgoing rules.outgoing
    refine ⟨W, ?_, hstems.trans hstems'⟩
    have hledger : ((s₁.inject .incoming rules.incoming).2.inject .outgoing
        rules.outgoing).2.ledger = s₁.ledger := by rw [inject_ledger, inject_ledger]
    rcases hin : s₁.inject .incoming rules.incoming with ⟨_ | added, s₂⟩ <;>
      rcases hout : s₂.inject .outgoing rules.outgoing with ⟨_ | added', s₃⟩ <;>
        simp only [hin, hout, Site.enrolled] at hW hledger ⊢ <;> rw [hledger] <;> exact hW

theorem Laid.obey (hU : s.Laid U) (command : Command) :
    ∃ V, (s.obey command).Laid V ∧ Stems (fun _ _ => True) U V := by
  cases command with
  | operation o =>
    obtain ⟨V, hV, hstems⟩ := hU.step o
    exact ⟨V, hV, hstems.mono fun _ _ _ => trivial⟩
  | enforce name rules => exact hU.enforce name rules
  | remove d rules =>
    obtain ⟨V, hV, hsub⟩ := hU.remove_sublist d rules
    exact ⟨_, hV, .set_sublist hsub⟩

theorem Laid.obeyAll (hU : s.Laid U) (commands : List Command) :
    ∃ V, (s.obeyAll commands).Laid V ∧ Stems (fun _ _ => True) U V := by
  induction commands generalizing s U with
  | nil => exact ⟨U, hU, .refl U⟩
  | cons command rest ih =>
    obtain ⟨V, hV, hstems⟩ := hU.obey command
    obtain ⟨W, hW, hstems'⟩ := ih hV
    exact ⟨W, hW, hstems.trans hstems'⟩

/-! ### What a layout says of the ledger -/

/-- Whether the ledger is exact for a direction: but for rules that the chain
held in the beginning and that are described like a default action, each rule of
the chain is recorded under just one name and there just once. -/
structure Exact (s : Site) (d : Direction) (found : List Rule) : Prop where
  ids : (s.chain d).map (·.id) = List.range (s.chain d).length
  recorded : ∀ r ∈ s.chain d,
    (∃ name, (s.ledger.recorded name d).count r = 1 ∧
      ∀ name', r ∈ s.ledger.recorded name' d → name' = name) ∨
    (∀ name, r ∉ s.ledger.recorded name d) ∧ r.isDefault = true ∧
      ∃ r' ∈ found, r = { r' with id := r.id }
  inChain : ∀ name, ∀ r ∈ s.ledger.recorded name d, r ∈ s.chain d

theorem Laid.exact {s₀ : Site} (hU : s.Laid U) (hstems : Stems (fun _ _ => True) s₀.found U)
    (hdefault : ∀ d, ∀ r ∈ s₀.chain d, r.isDefault = true) (d : Direction) :
    s.Exact d (s₀.chain d) := by
  have hchain := chain_eq hU.holds d
  refine ⟨?_, fun r hr => ?_, fun name r hr => ?_⟩
  · rw [hchain, Layout.map_id_rules, Layout.length_rules]
  · rw [hchain] at hr
    obtain ⟨⟨owner, r₀⟩, he, hbody⟩ := Layout.mem_rules.1 hr
    -- the name at the place of a rule is the only one that can record it
    have hrecorded (name : String) : r ∈ s.ledger.recorded name d ↔ owner = some name := by
      rw [hbody]
      exact hU.records.mem_recorded he name
    cases owner with
    | some name =>
      refine .inl ⟨name, ?_, fun name' h => (Option.some.inj ((hrecorded name').1 h)).symm⟩
      have hnodup : (s.ledger.recorded name d).Nodup := by
        rw [hU.records.recorded]
        exact (Layout.pairwise_chosen _ _).imp fun hlt heq => by
          rw [heq] at hlt
          exact Nat.lt_irrefl _ hlt
      exact List.nodup_iff_count_eq_one.1 hnodup r ((hrecorded name).2 rfl)
    | none =>
      have hmem := (hstems d _ (List.mem_of_getElem? he)).resolve_right (by simp)
      have hfrom : r₀ ∈ s₀.chain d := by simpa [Layout.strays] using hmem
      refine .inr ⟨fun name h => absurd ((hrecorded name).1 h) (by simp), ?_, r₀, hfrom, hbody⟩
      rw [hbody]
      exact hdefault d r₀ hfrom
  · rw [hU.records.recorded, Layout.mem_chosen] at hr
    obtain ⟨e, he, -, hbody⟩ := hr
    rw [hchain]
    exact Layout.mem_rules.2 ⟨e, he, hbody⟩

/-- After whatever is asked of a created firewall, and whatever fails, the
ledger is exact and has no empty records. -/
theorem ledger_exact {s₀ : Site} (hs : s₀.Created) (commands : List Command) :
    (∀ d, (s₀.obeyAll commands).Exact d (s₀.chain d)) ∧
      (s₀.obeyAll commands).ledger.NoneBare := by
  obtain ⟨hlaid, hdefault⟩ := hs.laid
  obtain ⟨U, hU, hstems⟩ := hlaid.obeyAll commands
  exact ⟨hU.exact hstems hdefault, hU.records.noneBare⟩

/-- Rules enforced under two names, some of which cannot be removed again, since
the fifteenth call is lost. -/
theorem ledger_exact_of_enforced :
    let s₀ := newborn { Backend.empty with
      faults := fun n _ _ => if n = 14 then some (.lost "") else none }
    let s := s₀.obeyAll [.enforce "a" ⟨[Rule.blank, Rule.blank], []⟩,
      .enforce "b" ⟨[Rule.blank], []⟩, .remove .incoming [Rule.blank, { Rule.blank with id := 1 }]]
    s₀.Created ∧
      s.chain .incoming = [Rule.blank, { Rule.blank with id := 1 }] ∧
      s.ledger.recorded "a" .incoming = [{ Rule.blank with id := 0 }] ∧
      s.ledger.recorded "b" .incoming = [{ Rule.blank with id := 1 }] ∧
      s.Exact .incoming [] := by
  have hs := newborn_created (.start fun n _ _ => if n = 14 then some (.lost "") else none) rfl
  exact ⟨hs, by decide, by decide, by decide, (ledger_exact hs _).1 .incoming⟩

/-- A rule that was described like a default action before the firewall was
created is in its chain and is not recorded. -/
theorem not_every_rule_recorded :
    ¬∀ s₀ : Site, s₀.Created → ∀ commands d, ∀ r ∈ (s₀.obeyAll commands).chain d,
      ∃ name, r ∈ (s₀.obeyAll commands).ledger.recorded name d := by
  intro h
  have hs := newborn_created ((Backend.Reached.start fun _ _ _ => none).elsewhere "fw" .create
    |>.elsewhere "fw" (.append .ingress [Rule.defaultEntry 0 .drop])) rfl
  obtain ⟨name, hname⟩ := h _ hs [] .outgoing (Rule.defaultEntry 0 .drop) (by decide)
  cases hname

end Site

end PodFirewall
