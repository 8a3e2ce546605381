import Mathlib.Data.List.Nodup
import PodFirewall.Proofs.Firewall.Filing

/-!
Runs in which no call fails. After each operation the chains hold the rules of
the applied records, in the order of evaluation and with nothing in between. So
the chains depend on the applied records alone, and not on how they came to be
applied.
-/

namespace PodFirewall

def Call.any : Call → Bool := fun _ => true

namespace Site

variable {dir : String → Direction} {ops : List Operation}

/-- Whether the chain of a direction is canonical: behind what it held at first,
it holds the rules of the applied records in the order of evaluation, and these
records are those asked for. -/
structure Canonical (s₀ s : Site) (wanted : List Applied) (d : Direction) : Prop where
  inOrder : InOrder (s.ledger.applied.get d)
  given : (s.ledger.applied.get d).Perm (wanted.filter fun a => a.record.direction == d)
  chain : Ledger.sameRules (s.chain d)
    (s₀.chain d ++ (s.ledger.applied.get d).flatMap (·.rules)) = true
  ids : (s.chain d).map (·.id) = List.range (s.chain d).length

/-- A run of proper operations on a created firewall in which no call fails. -/
structure Smooth (s₀ : Site) (dir : String → Direction) (ops : List Operation) : Prop where
  created : s₀.Created
  proper : ∀ o ∈ ops, o.Proper dir
  fine : (s₀.run ops).backend.failures Call.any = s₀.backend.failures Call.any

theorem Smooth.canonical {s₀ : Site} (h : s₀.Smooth dir ops) (d : Direction) :
    Canonical s₀ (s₀.run ops) (Operation.demands ops) d := by
  obtain ⟨hlaid, -⟩ := h.created.laid
  obtain ⟨V, hV, hfiled⟩ := filed_run (fun _ _ => rfl) (fun _ _ => rfl) hlaid
    (fun _ => owner_of_mem_found) h.created.meets (sound_nil dir) h.proper h.created.filed h.fine
  have hmeets := (meets_run h.created.meets (sound_nil dir) h.proper).1
  rw [heard_eq (fun _ => rfl) hlaid h.fine] at hmeets
  have hfiled := hfiled d
  rw [get_found] at hfiled
  refine ⟨hmeets.inOrder d, hmeets.perm d, hfiled.sameRules hV, ?_⟩
  rw [chain_eq hV.holds, Layout.map_id_rules, Layout.length_rules]

/-- A run stays smooth when it is broken off. -/
theorem Smooth.of_isPrefix {s₀ : Site} {done : List Operation} (h : s₀.Smooth dir ops)
    (hdone : done <+: ops) : s₀.Smooth dir done := by
  obtain ⟨later, rfl⟩ := hdone
  have hrun : s₀.run (done ++ later) = (s₀.run done).run later := List.foldl_append
  have hle := failures_le_run s₀ done Call.any
  have hle' := failures_le_run (s₀.run done) later Call.any
  have hfine := h.fine
  rw [hrun] at hfine
  exact ⟨h.created, fun o ho => h.proper o (List.mem_append_left _ ho), by omega⟩

/-- Records in the order of evaluation that have different keys are listed in
one way only. -/
theorem eq_of_inOrder {l m : List Applied} (hl : InOrder l) (hm : InOrder m)
    (hkeys : l.Pairwise fun a b => a.record.orderKey ≠ b.record.orderKey) (hperm : l.Perm m) :
    l = m := by
  have hnodup : (l.map (·.record.orderKey)).Nodup := List.pairwise_map.2 hkeys
  refine hperm.eq_of_pairwise (fun a b ha hb hab hba => ?_) hl hm
  exact List.inj_on_of_nodup_map hnodup ha (hperm.mem_iff.2 hb) (OrderKey.le_antisymm hab hba)

/-- Different names keep records apart, so lists of the same records are
permutations of each other. -/
theorem perm_of_distinct {l m : List Applied} (hl : Distinct l) (hm : Distinct m)
    (hmem : ∀ a, a ∈ l ↔ a ∈ m) : l.Perm m := by
  have hnodup {l : List Applied} (h : Distinct l) : l.Nodup :=
    h.imp fun hne heq => hne (congrArg (·.record.name) heq)
  exact (List.perm_ext_iff_of_nodup (hnodup hl) (hnodup hm)).2 hmem

theorem Smooth.distinct {s₀ : Site} (h : s₀.Smooth dir ops) (d : Direction) :
    Distinct ((s₀.run ops).ledger.applied.get d) := by
  obtain ⟨hmeets, hsound⟩ := meets_run h.created.meets (sound_nil dir) h.proper
  exact hmeets.distinct hsound d

/-- In a run in which no call fails the chains are canonical after every
operation. So two such runs that end with the same records, no two of which have
one key, end with the same chains, if they started with the same ones. -/
theorem chain_canonical {s₀ : Site} (h : s₀.Smooth dir ops) :
    (∀ done, done <+: ops → ∀ d,
      Canonical s₀ (s₀.run done) (Operation.demands done) d) ∧
    ∀ {t₀ : Site} {dir' : String → Direction} {ops' : List Operation}, t₀.Smooth dir' ops' →
      ∀ d, Ledger.sameRules (s₀.chain d) (t₀.chain d) = true →
        (∀ a, a ∈ (s₀.run ops).ledger.applied.get d ↔ a ∈ (t₀.run ops').ledger.applied.get d) →
        (((s₀.run ops).ledger.applied.get d).Pairwise fun a b =>
          a.record.orderKey ≠ b.record.orderKey) →
        Ledger.sameRules ((s₀.run ops).chain d) ((t₀.run ops').chain d) = true ∧
          ((s₀.run ops).chain d).map (·.id) = ((t₀.run ops').chain d).map (·.id) := by
  refine ⟨fun done hdone => (h.of_isPrefix hdone).canonical,
    fun {t₀ dir' ops'} h' d hleft hmem hkeys => ?_⟩
  have hcanonical := h.canonical d
  have hcanonical' := h'.canonical d
  -- the order of evaluation leaves one list for the records that both runs end with
  have hsame := eq_of_inOrder hcanonical.inOrder hcanonical'.inOrder hkeys
    (perm_of_distinct (h.distinct d) (h'.distinct d) hmem)
  have hchain := (Ledger.sameRules_iff _ _).1 hcanonical.chain
  have hchain' := (Ledger.sameRules_iff _ _).1 hcanonical'.chain
  have hbodies : ((s₀.run ops).chain d).map Rule.body =
      ((t₀.run ops').chain d).map Rule.body := by
    rw [hchain, hchain', hsame, List.map_append, List.map_append,
      (Ledger.sameRules_iff _ _).1 hleft]
  have hlength : ((s₀.run ops).chain d).length = ((t₀.run ops').chain d).length := by
    simpa using congrArg List.length hbodies
  refine ⟨(Ledger.sameRules_iff _ _).2 hbodies, ?_⟩
  rw [hcanonical.ids, hcanonical'.ids, hlength]

/-- Two records, one of which moves and one of which grows and shrinks again, end
in the order in which they are applied at once. -/
theorem chain_canonical_of_moved :
    let s₀ := newborn Backend.empty
    let forward : Rule := { Rule.blank with action := .forward }
    let ops := [Operation.apply (.plain "a" 5 .incoming) [Rule.blank],
      .apply (.plain "b" 3 .incoming) [forward]]
    let ops' := [Operation.apply (.plain "b" 7 .incoming) [forward, Rule.blank],
      .apply (.plain "a" 5 .incoming) [Rule.blank], .apply (.plain "b" 3 .incoming) [forward]]
    s₀.Smooth (fun _ => .incoming) ops ∧ s₀.Smooth (fun _ => .incoming) ops' ∧
      (s₀.run ops).chain .incoming = [forward, { Rule.blank with id := 1 }] ∧
      Ledger.sameRules ((s₀.run ops).chain .incoming) ((s₀.run ops').chain .incoming) = true := by
  intro s₀ forward ops ops'
  have hs : s₀.Created := newborn_created (.start fun _ _ _ => none) rfl
  have h : s₀.Smooth (fun _ => .incoming) ops :=
    ⟨hs, by simp [ops, Operation.Proper, Record.plain], by decide⟩
  have h' : s₀.Smooth (fun _ => .incoming) ops' :=
    ⟨hs, by simp [ops', Operation.Proper, Record.plain, forward]; decide, by decide⟩
  have happlied : (s₀.run ops).ledger.applied.get .incoming =
      (s₀.run ops').ledger.applied.get .incoming := by decide
  refine ⟨h, h', by decide, ?_⟩
  exact ((chain_canonical h).2 h' .incoming (by decide) (fun a => by rw [happlied])
    (by decide)).1

/-- A rule that was described like a default action before the firewall was
created stays in its chain, though no record asks for it. -/
theorem not_only_applied_rules :
    ¬∀ (s₀ : Site) (dir : String → Direction) (ops : List Operation), s₀.Smooth dir ops →
      ∀ d, Ledger.sameRules ((s₀.run ops).chain d)
        (((s₀.run ops).ledger.applied.get d).flatMap (·.rules)) = true := by
  intro h
  have hs := newborn_created ((Backend.Reached.start fun _ _ _ => none).elsewhere "fw" .create
    |>.elsewhere "fw" (.append .ingress [Rule.defaultEntry 0 .drop])) rfl
  have happly : (Operation.apply (.plain "a" 5 .outgoing) []).Proper fun _ => .outgoing :=
    ⟨rfl, .nil⟩
  have hsame := h _ (fun _ => .outgoing) [.apply (.plain "a" 5 .outgoing) []]
    ⟨hs, by simpa using happly, by decide⟩ .outgoing
  revert hsame
  decide

end Site

end PodFirewall
