import PodFirewall.Proofs.Firewall.Departure
import PodFirewall.Proofs.Firewall.Reversal

/-!
What removing rules reports. The rules are deleted from the last to the first, so
each stands where its number says until its turn comes; those that could not be
deleted before stand behind it and move up with each deletion that is done.
`Site.Told` is what holds between two deletions: the rules that failed are known
by the places they have at that moment.
-/

namespace PodFirewall

namespace Rule

/-- A rule with its number after other rules left its chain: each of them that
stood in front of it moved it up. -/
def movedUp (gone : List Rule) (r : Rule) : Rule :=
  { r with id := r.id - gone.countP fun x => x.id < r.id }

theorem movedUp_of_ahead {gone : List Rule} {r : Rule} (h : ∀ x ∈ gone, r.id < x.id) :
    movedUp gone r = r := by
  have hnone : (gone.countP fun x => x.id < r.id) = 0 :=
    List.countP_eq_zero.2 fun x hx => by simpa using Nat.le_of_lt (h x hx)
  rw [movedUp, hnone]
  rfl

/-- One more rule that goes, in front of the new place of another. -/
theorem shift_movedUp {gone : List Rule} {x r : Rule} (h : x.id < (movedUp gone r).id) :
    shift x.id (movedUp gone r) = movedUp (x :: gone) r := by
  have hlt : x.id < r.id := Nat.lt_of_lt_of_le h (Nat.sub_le _ _)
  rw [shift, if_pos h, movedUp, movedUp, List.countP_cons_of_pos (by simpa using hlt)]
  simp only [Nat.sub_sub]

theorem placedIn_mem {l : List Rule} {r : Rule} (h : r ∈ l) : placedIn l r ∈ numberFrom 0 l := by
  refine List.mem_iff_getElem?.2 ⟨l.idxOf r, ?_⟩
  rw [getElem?_numberFrom, List.getElem?_idxOf h, Option.map_some, Nat.zero_add]
  rfl

end Rule

/-! ### Chains and what is left of them -/

section Chain

variable {chain : List Rule}

/-- A rule of a numbered chain stands where its number says. -/
theorem getElem?_id_of_mem (h : chain.map (·.id) = List.range chain.length) {r : Rule}
    (hr : r ∈ chain) : chain[r.id]? = some r := by
  obtain ⟨i, hi, rfl⟩ := List.getElem_of_mem hr
  have hid : (chain.map (·.id))[i]? = some i := by
    rw [h, List.getElem?_range hi]
  rw [List.getElem?_map, List.getElem?_eq_getElem hi, Option.map_some, Option.some.injEq] at hid
  rw [hid, List.getElem?_eq_getElem hi]

/-- In rules that ascend, as many stand in front of one as have lower numbers. -/
theorem idxOf_eq_countP {l : List Rule} (h : l.Pairwise fun a b => a.id < b.id) {r : Rule}
    (hr : r ∈ l) : l.idxOf r = l.countP fun x => x.id < r.id := by
  induction l with
  | nil => cases hr
  | cons x rest ih =>
    obtain ⟨hx, hrest⟩ := List.pairwise_cons.1 h
    rcases List.mem_cons.1 hr with rfl | hr
    · have hnone : (rest.countP fun x => x.id < r.id) = 0 :=
        List.countP_eq_zero.2 fun y hy => by simpa using Nat.le_of_lt (hx y hy)
      rw [List.idxOf_cons_self, List.countP_cons_of_neg (by simp), hnone]
    · have hne : x ≠ r := fun heq => Nat.lt_irrefl _ (heq ▸ hx r hr)
      rw [List.idxOf_cons_ne _ hne, ih hrest hr,
        List.countP_cons_of_pos (by simpa using hx r hr)]

theorem ascending_of_ids (h : chain.map (·.id) = List.range chain.length) :
    chain.Pairwise fun a b => a.id < b.id := by
  rw [← List.pairwise_map (f := Rule.id) (R := (· < ·)), h]
  exact List.pairwise_lt_range

/-- The rules in front of a rule that is left were in front of it before, but for
those that are gone. -/
theorem Sweep.Parts.placedIn_eq {v : Sweep Rule} (h : v.Parts chain)
    (hids : chain.map (·.id) = List.range chain.length) {r : Rule} (hr : r ∈ v.rest) :
    Rule.placedIn v.rest r = Rule.movedUp v.gone r := by
  have hup := ascending_of_ids hids
  have hmem := h.sublist.subset hr
  have hplace : chain.idxOf r = r.id := by
    obtain ⟨hlt, heq⟩ := List.getElem?_eq_some_iff.1 (getElem?_id_of_mem hids hmem)
    have hnodup : chain.Nodup := hup.imp fun hlt heq => Nat.ne_of_lt hlt (congrArg Rule.id heq)
    rw [← heq, hnodup.idxOf_getElem, heq]
  have hcount := h.perm.countP_eq fun x => decide (x.id < r.id)
  rw [List.countP_append, ← idxOf_eq_countP (hup.sublist h.sublist) hr,
    ← idxOf_eq_countP hup hmem, hplace] at hcount
  rw [Rule.placedIn, Rule.movedUp]
  congr 1
  omega

/-- What a part of a layout has left, by its rules. -/
theorem Sweep.Parts.map_filter_rest {N : Layout} {w : Sweep (Option String × Rule)}
    (h : w.Parts N) (hN : (N.map (·.2)).Nodup) (q : Option String × Rule → Bool) :
    (w.rest.filter q).map (·.2) = ((N.filter q).map (·.2)).filter (· ∉ (w.map (·.2)).gone) := by
  have hgone : ∀ e ∈ N, e ∉ w.gone ↔ e.2 ∉ (w.map (·.2)).gone := by
    intro e he
    rw [not_iff_not]
    refine ⟨List.mem_map_of_mem, fun hmem => ?_⟩
    obtain ⟨e', he', heq⟩ := List.mem_map.1 hmem
    have hin : e' ∈ N := h.perm.subset (List.mem_append_right _ he')
    rwa [← List.inj_on_of_nodup_map hN hin he heq]
  rw [h.rest_eq hN.of_map, List.filter_map, List.filter_filter, List.filter_filter]
  congr 1
  refine List.filter_congr fun e he => ?_
  simp [hgone e he, Bool.and_comm]

end Chain

namespace Site

/-! ### Deleting one by one -/

/-- What holds between two deletions: the rules still to be deleted stand where
their numbers say, in front of all that was tried, and the rules that failed have
moved up by what is gone. -/
structure Told (given todo : List Rule) (out : Deletion) (v : Sweep Rule) : Prop where
  found : ∀ r ∈ todo, v.rest[r.id]? = some r
  failed : out.failed = v.failed.map (Rule.movedUp v.gone)
  ascending : out.failed.Pairwise fun a b => a.id < b.id
  aheadFailed : ∀ r ∈ todo, ∀ x ∈ out.failed, r.id < x.id
  aheadGone : ∀ r ∈ todo, ∀ x ∈ v.gone, r.id < x.id
  tried : (todo ++ v.tried).Perm given

namespace Told

variable {given todo : List Rule} {r : Rule} {out : Deletion} {v : Sweep Rule}

theorem tried_attempt (h : Told given (r :: todo) out v) (done : Bool) :
    (todo ++ (v.attempt r.id done).tried).Perm given := by
  have hone := Sweep.tried_attempt v r.id done
  rw [h.found r List.mem_cons_self] at hone
  exact ((hone.append_left todo).trans List.perm_middle).trans h.tried

theorem found_attempt (h : Told given (r :: todo) out v) (hlt : ∀ r' ∈ todo, r'.id < r.id)
    (done : Bool) : ∀ r' ∈ todo, (v.attempt r.id done).rest[r'.id]? = some r' := by
  intro r' hr'
  rw [Sweep.getElem?_attempt_of_lt _ _ (hlt r' hr')]
  exact h.found r' (List.mem_cons_of_mem _ hr')

/-- A deletion that fails leaves its rule in front of those that failed before. -/
theorem kept (h : Told given (r :: todo) out v) (hlt : ∀ r' ∈ todo, r'.id < r.id) :
    Told given todo { out with failed := r :: out.failed } (v.attempt r.id false) := by
  have hstays : v.attempt r.id false = { v with failed := r :: v.failed } := by
    rw [Sweep.attempt, h.found r List.mem_cons_self]
    rfl
  refine ⟨h.found_attempt hlt false, ?_, ?_, fun r' hr' => ?_, ?_, h.tried_attempt false⟩
  · rw [hstays]
    simp only [List.map_cons, ← h.failed]
    rw [Rule.movedUp_of_ahead (h.aheadGone r List.mem_cons_self)]
  · exact List.pairwise_cons.2 ⟨h.aheadFailed r List.mem_cons_self, h.ascending⟩
  · rw [List.forall_mem_cons]
    exact ⟨hlt r' hr', h.aheadFailed r' (List.mem_cons_of_mem _ hr')⟩
  · rw [hstays]
    exact fun r' hr' => h.aheadGone r' (List.mem_cons_of_mem _ hr')

/-- A deletion that is done moves up those that failed before, all of which stand
behind it. -/
theorem deleted (h : Told given (r :: todo) out v) (hlt : ∀ r' ∈ todo, r'.id < r.id) :
    Told given todo ⟨out.failed.map (Rule.shift r.id), true⟩ (v.attempt r.id true) := by
  have hgoes : v.attempt r.id true =
      { v with rest := v.rest.eraseIdx r.id, gone := r :: v.gone } := by
    rw [Sweep.attempt, h.found r List.mem_cons_self]
    rfl
  have hbehind := h.aheadFailed r List.mem_cons_self
  have hshift {x : Rule} (hx : x ∈ out.failed) : (Rule.shift r.id x).id = x.id - 1 := by
    rw [Rule.shift, if_pos (hbehind x hx)]
  refine ⟨h.found_attempt hlt true, ?_, ?_, fun r' hr' => ?_, fun r' hr' => ?_,
    h.tried_attempt true⟩
  · rw [hgoes]
    dsimp only
    rw [h.failed, List.map_map]
    refine List.map_congr_left fun x hx => Rule.shift_movedUp ?_
    exact hbehind _ (by rw [h.failed]; exact List.mem_map_of_mem hx)
  · refine List.pairwise_map.2 (h.ascending.imp_of_mem fun ha hb hab => ?_)
    have ha' := hbehind _ ha
    rw [hshift ha, hshift hb]
    omega
  · intro x' hx'
    obtain ⟨x, hx, rfl⟩ := List.mem_map.1 hx'
    have hfirst := hlt r' hr'
    have hx' := hbehind x hx
    rw [hshift hx]
    omega
  · rw [hgoes, List.forall_mem_cons]
    exact ⟨hlt r' hr', h.aheadGone r' (List.mem_cons_of_mem _ hr')⟩

end Told

variable {s s₀ s' : Site} {U : PerDirection Layout}
  {t : PerDirection (Sweep (Option String × Rule))} {d : Direction} {rules : List Rule}

/-- Before the first call. -/
theorem Follows.unswept (hU : s.Laid U) :
    Follows s U s ⟨.start U.incoming, .start U.outgoing⟩ :=
  ⟨rfl, ⟨[], rfl, fun d => by cases d <;> rfl⟩, hU⟩

theorem Follows.told (h : Follows s₀ U s t) {todo : List Rule} {out : Deletion}
    (hdown : todo.Pairwise fun a b => b.id < a.id)
    (htold : Told rules todo out ((t.get d).map (·.2))) :
    ∃ t', Follows s₀ U (Site.deleteEach d todo out s).2 (t.set d t') ∧
      Told rules [] (Site.deleteEach d todo out s).1 (t'.map (·.2)) := by
  induction todo generalizing out s t with
  | nil => exact ⟨t.get d, by simpa [Site.deleteEach] using h, htold⟩
  | cons r rest ih =>
    obtain ⟨hlt, hrest⟩ := List.pairwise_cons.1 hdown
    have hstep (done : Bool) : ((t.get d).map (·.2)).attempt r.id done =
        ((t.modify d fun t => t.attempt r.id done).get d).map (·.2) := by
      rw [Sweep.attempt_map, PerDirection.get_modify_self]
    unfold Site.deleteEach
    split <;> rename_i hperform
    · obtain ⟨t', hfollows, htold'⟩ := ih (h.delete hperform) hrest (hstep false ▸ htold.kept hlt)
      rw [PerDirection.modify, PerDirection.set_set] at hfollows
      exact ⟨t', hfollows, htold'⟩
    · obtain ⟨t', hfollows, htold'⟩ := ih (h.delete hperform) hrest (hstep true ▸ htold.deleted hlt)
      rw [PerDirection.modify, PerDirection.set_set] at hfollows
      exact ⟨t', hfollows, htold'⟩

theorem Laid.ids_chain (hU : s.Laid U) (d : Direction) :
    (s.chain d).map (·.id) = List.range (s.chain d).length := by
  rw [chain_eq hU.holds, Layout.map_id_rules, Layout.length_rules]

/-- Rules of a chain with different numbers, from the last to the first. -/
theorem told_start (hids : (s.chain d).map (·.id) = List.range (s.chain d).length)
    (hdistinct : (rules.map (·.id)).Nodup) (hpresent : ∀ r ∈ rules, r ∈ s.chain d) :
    (Rule.sortDown rules).Pairwise (fun a b => b.id < a.id) ∧
      Told rules (Rule.sortDown rules) ⟨[], false⟩ (.start (s.chain d)) := by
  have hperm := Rule.sortDown_perm rules
  refine ⟨Rule.sortDown_strict hdistinct, fun r hr => ?_, rfl, .nil,
    fun _ _ => List.forall_mem_nil _, fun _ _ => List.forall_mem_nil _, ?_⟩
  · exact getElem?_id_of_mem hids (hpresent r (hperm.subset hr))
  · simpa [Sweep.tried, Sweep.start] using hperm

/-! ### What is removed and what is left -/

/-- Whether the removal of rules from a direction came out as its deletions did:
the rules that are left of those given are the ones whose deletion failed, in the
chain in this order; the rules that were deleted are gone from the chain and the
records, and all others moved up. -/
structure Removed (s s' : Site) (d : Direction) (rules : List Rule) (v : Sweep Rule)
    (left : List Rule) : Prop where
  tried : v.tried.Perm rules
  eq_failed : left = v.failed.map (Rule.movedUp v.gone)
  ascending : left.Pairwise fun a b => a.id < b.id
  present : ∀ r ∈ left, r ∈ s'.chain d
  chain : s'.chain d = Rule.numberFrom 0 ((s.chain d).filter (· ∉ v.gone))
  recorded : ∀ name, s'.ledger.recorded name d =
    ((s.ledger.recorded name d).filter (· ∉ v.gone)).map (Rule.movedUp v.gone)
  elsewhere : ∀ d', d' ≠ d → s'.chain d' = s.chain d' ∧
    ∀ name, s'.ledger.recorded name d' = s.ledger.recorded name d'

/-- Removing rules follows the layouts through its deletions. -/
theorem Follows.remove_told (h : Follows s₀ U s t)
    (hdown : (Rule.sortDown rules).Pairwise fun a b => b.id < a.id)
    (htold : Told rules (Rule.sortDown rules) ⟨[], false⟩ ((t.get d).map (·.2))) :
    ∃ t' out, Follows s₀ U (s.remove d rules).2 (t.set d t') ∧
      Told rules [] out (t'.map (·.2)) ∧ (s.remove d rules).1 = out.failed := by
  unfold Site.remove
  split
  · rename_i hempty
    obtain rfl := List.isEmpty_iff.1 hempty
    exact ⟨t.get d, ⟨[], false⟩, by simpa using h, htold, rfl⟩
  · obtain ⟨t', hfollows, htold'⟩ := h.told hdown htold
    split
    rename_i out s' hdeleted
    rw [hdeleted] at hfollows htold'
    refine ⟨t', out, ?_, htold', ?_⟩ <;> split
    · exact hfollows.perform (Eq.refl (s'.backend.perform s'.name (.commit d.chain))) nofun rfl
    · exact hfollows
    · rfl
    · rfl

/-- A rule whose deletion was tried in vain is still there. -/
theorem Told.mem_rest {given : List Rule} {out : Deletion} {v : Sweep Rule} {l : List Rule}
    (h : Told given [] out v) (hparts : v.Parts l) (hdistinct : given.Nodup)
    (hpresent : ∀ r ∈ given, r ∈ l) {r : Rule} (hr : r ∈ v.failed) : r ∈ v.rest := by
  have htried : v.tried.Perm given := h.tried
  have hmem := hpresent r (htried.subset (List.mem_append_right _ hr))
  refine (List.mem_append.1 (hparts.perm.symm.subset hmem)).resolve_right fun hgone => ?_
  exact (List.nodup_append.1 (htried.nodup_iff.2 hdistinct)).2.2 r hgone r hr rfl

/-- The deletions that are followed say what was removed. -/
theorem Follows.removed {t' : Sweep (Option String × Rule)} {out : Deletion}
    (h : Follows s (Layout.numbered U) s' (t.set d t')) (hU : s.Laid U)
    (hothers : ∀ d', d' ≠ d → (t.get d').rest = (Layout.numbered U).get d')
    (htold : Told rules [] out (t'.map (·.2))) (hdistinct : rules.Nodup)
    (hpresent : ∀ r ∈ rules, r ∈ s.chain d) :
    s.Removed s' d rules (t'.map (·.2)) out.failed := by
  have hN := Layout.nodup_numbered U d
  have hparts : t'.Parts ((Layout.numbered U).get d) := by
    simpa using h.parts d
  have hleft := hparts.map (·.2)
  rw [← hU.chain_numbered] at hleft
  have hids := hU.ids_chain d
  have hchain : s'.chain d = Rule.numberFrom 0 (t'.map (·.2)).rest := by
    rw [chain_eq h.laid.holds, get_lefts, PerDirection.get_set_self]
    rfl
  refine ⟨htold.tried, htold.failed, htold.ascending, fun r hr => ?_, ?_, fun name => ?_,
    fun d' hd => ?_⟩
  · rw [htold.failed] at hr
    obtain ⟨x, hx, rfl⟩ := List.mem_map.1 hr
    have hrest := htold.mem_rest hleft hdistinct hpresent hx
    rw [hchain, ← hleft.placedIn_eq hids hrest]
    exact Rule.placedIn_mem hrest
  · rw [hchain, hleft.rest_eq]
    rw [hU.chain_numbered]
    exact hN
  · have hmine := h.recorded name d
    rw [PerDirection.get_set_self] at hmine
    rw [hmine, hU.recorded_numbered, ← hparts.map_filter_rest hN]
    refine List.map_congr_left fun r hr => hleft.placedIn_eq hids ?_
    exact (List.filter_sublist.map _).subset hr
  · have hsame : (lefts (t.set d t')).get d' = (Layout.numbered U).get d' := by
      rw [get_lefts, PerDirection.get_set_of_ne _ _ hd, hothers d' hd]
    refine ⟨?_, fun name => ?_⟩
    · rw [chain_eq h.laid.holds, chain_eq hU.numbered.holds, hsame]
    · rw [h.laid.records.recorded, hU.numbered.records.recorded, hsame]

/-- Removing rules of a chain with different numbers, given in any order, reports
what is left of them. Whatever happened to the firewall before and whichever
deletions fail, the rules that are returned are those whose deletion failed, as
they now stand in the chain and in its order; the chain and the records lose the
rules that were deleted, and nothing else. -/
theorem remove_reports (hs : s.Lived) (d : Direction) {rules : List Rule}
    (hdistinct : (rules.map (·.id)).Nodup) (hpresent : ∀ r ∈ rules, r ∈ s.chain d) :
    ∃ calls, (s.remove d rules).2.backend.log = calls ++ s.backend.log ∧
      s.Removed (s.remove d rules).2 d rules (.replay s.name d.chain (s.chain d) calls)
        (s.remove d rules).1 := by
  rcases hs.laid_or_gone with ⟨U, hU⟩ | hgone
  · obtain ⟨hdown, htold⟩ := told_start (hU.ids_chain d) hdistinct hpresent
    have hstart : Sweep.start (s.chain d) =
        ((⟨.start (Layout.numbered U).incoming, .start (Layout.numbered U).outgoing⟩ :
          PerDirection (Sweep (Option String × Rule))).get d).map (·.2) := by
      rw [hU.chain_numbered]
      cases d <;> rfl
    obtain ⟨t', out, hfollows, htold', hleft⟩ :=
      (Follows.unswept hU.numbered).remove_told hdown (hstart ▸ htold)
    obtain ⟨calls, hlog, hreplay⟩ := hfollows.calls
    refine ⟨calls, hlog, ?_⟩
    rw [hU.chain_numbered, Sweep.replay_map, ← hreplay, PerDirection.get_set_self, hleft]
    exact hfollows.removed hU (fun d' _ => by cases d' <;> rfl) htold' hdistinct.of_map hpresent
  · have hempty : s.chain d = [] := by rw [chain, hgone]; rfl
    obtain rfl : rules = [] := List.eq_nil_iff_forall_not_mem.2 fun r hr =>
      List.not_mem_nil (hempty ▸ hpresent r hr)
    have hstay : Rule.movedUp [] = id :=
      funext fun r => Rule.movedUp_of_ahead (List.forall_mem_nil _)
    refine ⟨[], rfl, .refl _, rfl, .nil, List.forall_mem_nil _, ?_, fun name => ?_,
      fun _ _ => ⟨rfl, fun _ => rfl⟩⟩
    · rw [hempty]
      exact hempty
    · rw [hempty]
      simp [Sweep.replay, Sweep.start, Site.remove, hstay]

/-- Rules of two names, given in no order, of which the middle one cannot be
deleted: the rule in front of it goes, so that it moves up. -/
theorem remove_reports_refused :
    let forward : Rule := { Rule.blank with action := .forward }
    let s₀ := newborn { Backend.empty with
      faults := fun n _ _ => if n = 15 then some .refused else none }
    let s := s₀.obeyAll [.enforce "a" ⟨[Rule.blank, forward, Rule.blank], []⟩,
      .enforce "b" ⟨[forward], []⟩]
    let rules := [{ forward with id := 1 }, { Rule.blank with id := 2 }, Rule.blank]
    s.Lived ∧ (rules.map (·.id)).Nodup ∧ (∀ r ∈ rules, r ∈ s.chain .incoming) ∧
      (s.remove .incoming rules).1 = [forward] ∧
      (s.remove .incoming rules).2.chain .incoming = [forward, { forward with id := 1 }] ∧
      (s.remove .incoming rules).2.ledger.recorded "a" .incoming = [forward] ∧
      (s.remove .incoming rules).2.ledger.recorded "b" .incoming = [{ forward with id := 1 }] ∧
      ∃ calls, (s.remove .incoming rules).2.backend.log = calls ++ s.backend.log ∧
        s.Removed (s.remove .incoming rules).2 .incoming rules
          (.replay s.name Direction.incoming.chain (s.chain .incoming) calls)
          (s.remove .incoming rules).1 := by
  intro forward s₀ s rules
  have hs₀ : s₀.Created := newborn_created (.start _) rfl
  have hs : s.Lived := (Lived.created hs₀).obeyAll _
  have hdistinct : (rules.map (·.id)).Nodup := by decide
  have hpresent : ∀ r ∈ rules, r ∈ s.chain .incoming := by decide +kernel
  exact ⟨hs, hdistinct, hpresent, by decide +kernel, by decide +kernel, by decide +kernel,
    by decide +kernel, remove_reports hs .incoming hdistinct hpresent⟩

end Site

end PodFirewall
