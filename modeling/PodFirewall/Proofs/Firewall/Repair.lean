import PodFirewall.Proofs.Firewall.Filing

/-!
What an apply repairs. An apply builds the chain anew from the first record on
that it moves or that is out of sync, and keeps the rules in front of it. A
record is in sync if its own rules are right, wherever they stand. So after
deletions have failed the records that are kept may stand in the wrong order, and
the chain is right after an apply just if what is kept was right before.
-/

namespace PodFirewall

namespace Site

open Layout (Stems)

variable {s s' : Site} {U V : PerDirection Layout} {wanted : List Applied}
  {dir : String → Direction} {d : Direction}

/-! ### Leaving out rules of a chain -/

/-- The rules in the chain of a direction but for those that are left out under
the name that they are recorded under. -/
def leavingOut (s : Site) (d : Direction) (out : String → Rule → Bool) : List Rule :=
  (s.chain d).filter fun r =>
    !s.ledger.rules.keys.any fun name => (s.ledger.recorded name d).contains r && out name r

def applies (s : Site) (name : String) : Bool := s.appliedRecords.any fun r => r.name == name

/-- The rules in the chain of a direction but for those recorded under names that
are not applied any more. -/
def enforced (s : Site) (d : Direction) : List Rule := s.leavingOut d fun name _ => !s.applies name

theorem Laid.map_body_leavingOut (hU : s.Laid U) (d : Direction) {out : String → Rule → Bool}
    (hout : ∀ name r, out name r.body = out name r) :
    (s.leavingOut d out).map Rule.body =
      ((U.get d).filter fun e => !e.1.any fun name => out name e.2).map fun e => e.2.body := by
  let q : Layout.Test := fun n r => !n.any fun name => out name r
  have hpasses : (fun e : Option String × Rule => !e.1.any fun name => out name e.2) =
      Layout.passes q := by
    funext e
    simp only [Layout.passes, q, hout]
  have hfilter : (((U.get d).numberedFrom 0).filter fun e =>
      !s.ledger.rules.keys.any fun name =>
        (s.ledger.recorded name d).contains e.2 && out name e.2) =
          ((U.get d).numberedFrom 0).filter (Layout.passes q) := by
    refine List.filter_congr fun x hx => ?_
    obtain ⟨i, e, he, rfl⟩ := Layout.mem_numberedFrom.1 hx
    rw [← hpasses, Nat.zero_add]
    refine congrArg not ?_
    rw [Bool.eq_iff_iff, List.any_eq_true, Option.any_eq_true]
    simp only [Bool.and_eq_true, List.contains_iff_mem, hU.records.mem_recorded he]
    constructor
    · rintro ⟨name, -, hname, hout⟩
      exact ⟨name, hname, hout⟩
    · rintro ⟨name, hname, hout⟩
      exact ⟨name, hU.records.mem_keys (List.mem_of_getElem? he) hname, hname, hout⟩
  rw [leavingOut, chain_eq hU.holds, Layout.rules, ← Layout.map_snd_numberedFrom, List.filter_map,
    List.map_map, hpasses, ← Layout.map_body_filter_numberedFrom 0, ← hfilter]
  rfl

/-! ### Names stay in their direction -/

def Aligned (dir : String → Direction) (U : PerDirection Layout) : Prop :=
  ∀ d, ∀ e ∈ U.get d, ∀ name, e.1 = some name → dir name = d

theorem dir_of_named (hmeets : s.ledger.Meets wanted) (hsound : Sound dir wanted) {name : String}
    (h : Named s.ledger d name) : dir name = d := by
  obtain ⟨a, ha, rfl⟩ := h
  obtain ⟨hwanted, hdirection⟩ := hmeets.mem_wanted ha
  rw [← hsound.direction a hwanted, hdirection]

theorem aligned_run {ops : List Operation} (hU : s.Laid U) (hmeets : s.ledger.Meets wanted)
    (hsound : Sound dir wanted) (hops : ∀ o ∈ ops, o.Proper dir) (haligned : Aligned dir U) :
    ∃ V, (s.run ops).Laid V ∧ Aligned dir V := by
  induction ops generalizing s U wanted with
  | nil => exact ⟨U, hU, haligned⟩
  | cons o rest ih =>
    obtain ⟨ho, hrest⟩ := List.forall_mem_cons.1 hops
    obtain ⟨V, hV, hstems⟩ := hU.step o
    have hmeets' := meets_step hmeets hsound ho
    have hsound' := sound_heard hsound s ho
    refine ih hV hmeets' hsound' hrest fun d e he name hname => ?_
    rcases hstems d e he with he | ⟨name', hname', hnamed⟩
    · exact haligned d e he name hname
    · obtain rfl : name = name' := Option.some.inj (hname.symm.trans hname')
      exact dir_of_named hmeets' hsound' hnamed

theorem applies_of_named {name : String} (h : Named s.ledger d name) : s.applies name = true := by
  obtain ⟨a, ha, hname⟩ := h
  refine List.any_eq_true.2 ⟨a.record, List.mem_flatMap.2 ⟨d, ?_, ?_⟩, beq_iff_eq.2 hname⟩
  · cases d <;> decide
  · exact List.mem_map_of_mem ha

/-- A name is applied just if it is applied in its direction. -/
theorem applies_iff (hmeets : s.ledger.Meets wanted) (hsound : Sound dir wanted) {name : String}
    (hdir : dir name = d) : s.applies name = true ↔ Named s.ledger d name := by
  refine ⟨fun h => ?_, applies_of_named⟩
  obtain ⟨record, hrecord, hname⟩ := List.any_eq_true.1 h
  obtain ⟨d', -, hrecord⟩ := List.mem_flatMap.1 hrecord
  obtain ⟨a, ha, rfl⟩ := List.mem_map.1 hrecord
  have hnamed : Named s.ledger d' name := ⟨a, ha, beq_iff_eq.1 hname⟩
  rwa [← hdir, dir_of_named hmeets hsound hnamed]

/-! ### What an apply keeps -/

/-- The records whose rules an apply leaves where they stand: all of them, if it
only takes rules of its record, or else those in front of the rebuilt part. -/
def keptRecords (l : Ledger) (record : Record) (rules : List Rule) : List Applied :=
  match shrinkable? l record rules with
  | some i => (l.applied.get record.direction).set i ⟨record, rules⟩
  | none => keptPart l record rules

def asks (entries : List Applied) (name : String) (r : Rule) : Bool :=
  entries.any fun a => a.record.name == name && a.rules.any fun x => x.sameMatch r

/-- Whether the rules that an apply keeps are in the order of their records, with
no others in between. -/
def KeptInOrder (s : Site) (record : Record) (rules : List Rule) : Prop :=
  let kept := keptRecords s.ledger record rules
  Ledger.sameRules (s.leavingOut record.direction fun name r => !asks kept name r)
    (kept.flatMap (·.rules)) = true

theorem sameMatch_body (x r : Rule) : x.sameMatch r.body = x.sameMatch r := by
  rw [Bool.eq_iff_iff, Rule.sameMatch_iff, Rule.sameMatch_iff, Layout.body_body]

theorem map_body_entriesOf (entries : List Applied) :
    ((entriesOf entries).map fun e => e.2.body) =
      (entries.flatMap (·.rules)).map Rule.body := by
  simp [entriesOf, List.map_flatMap, Function.comp_def]

theorem asks_iff {entries : List Applied} {name : String} {r : Rule} :
    asks entries name r = true ↔
      ∃ a ∈ entries, a.record.name = name ∧ (a.rules.any fun x => x.sameMatch r) = true := by
  rw [asks, List.any_eq_true]
  simp only [Bool.and_eq_true, beq_iff_eq]

/-- If an operation takes out entries and appends those of some records, the
chain is right after it just if what stays is right. -/
theorem enforced_iff (hU : s.Laid U) (hV : s'.Laid V) (haligned : Aligned dir U)
    (hmeets : s'.ledger.Meets wanted) (hsound : Sound dir wanted) {kept tail : List Applied}
    {stays : Option String × Rule → Bool} (happlied : s'.ledger.applied.get d = kept ++ tail)
    (hVd : V.get d = (U.get d).filter stays ++ entriesOf tail)
    (hstrays : ∀ e ∈ U.get d, e.1 = none → stays e = true)
    (hstays : ∀ e ∈ U.get d, ∀ name, e.1 = some name →
      ((stays e = true ∧ ∃ a ∈ kept ++ tail, a.record.name = name) ↔ asks kept name e.2 = true)) :
    Ledger.sameRules (s'.enforced d) ((s'.ledger.applied.get d).flatMap (·.rules)) = true ↔
      Ledger.sameRules (s.leavingOut d fun name r => !asks kept name r)
        (kept.flatMap (·.rules)) = true := by
  have htail : ((entriesOf tail).filter fun e => !e.1.any fun name => !s'.applies name) =
      entriesOf tail := by
    refine List.filter_eq_self.2 fun e he => ?_
    obtain ⟨a, ha, r, -, rfl⟩ := mem_entriesOf.1 he
    have hnamed : Named s'.ledger d a.record.name := by
      refine ⟨a, ?_, rfl⟩
      rw [happlied]
      exact List.mem_append_right _ ha
    simp [applies_of_named hnamed]
  -- an entry that stays is counted just if its name is applied, and then a kept record asks
  -- for it
  have hkept : (((U.get d).filter stays).filter fun e =>
      !e.1.any fun name => !s'.applies name) =
        (U.get d).filter fun e => !e.1.any fun name => !asks kept name e.2 := by
    rw [List.filter_filter]
    refine List.filter_congr fun e he => ?_
    cases hname : e.1 with
    | none => simp [hstrays e he hname]
    | some name =>
      have hnamed := applies_iff hmeets hsound (haligned d e he name hname)
      rw [Named, happlied] at hnamed
      rw [Bool.eq_iff_iff, Option.any_some, Option.any_some, Bool.not_not, Bool.not_not,
        Bool.and_eq_true, and_comm, hnamed]
      exact hstays e he name hname
  have hout (name : String) (r : Rule) : (!asks kept name r.body) = !asks kept name r := by
    simp only [asks, sameMatch_body]
  rw [Ledger.sameRules_iff, Ledger.sameRules_iff, enforced,
    hV.map_body_leavingOut d fun _ _ => rfl, hVd, List.filter_append, htail, hkept,
    hU.map_body_leavingOut d hout, happlied, List.flatMap_append, List.map_append,
    List.map_append, map_body_entriesOf, List.append_left_inj]

/-- A record in sync asks for all rules under its name. -/
theorem any_sameMatch_of_inSync {L : Layout} {a : Applied} (hsync : InSync L a)
    {e : Option String × Rule} (he : e ∈ L) (hname : e.1 = some a.record.name) :
    (a.rules.any fun x => x.sameMatch e.2) = true := by
  have hmem : (e.1, e.2.body) ∈
      Layout.tags (L.filter (Layout.passes (Layout.ofName a.record.name))) :=
    List.mem_map.2 ⟨e, List.mem_filter.2 ⟨he, by simp [hname]⟩, rfl⟩
  rw [InSync] at hsync
  rw [hsync] at hmem
  obtain ⟨e', he', htag⟩ := List.mem_map.1 hmem
  simp only [entriesOf_cons, entriesOf_nil, List.append_nil] at he'
  obtain ⟨r, hr, rfl⟩ := List.mem_map.1 he'
  exact List.any_eq_true.2 ⟨r, hr, (Rule.sameMatch_iff _ _).2 (congrArg Prod.snd htag)⟩

/-- Shrinking a record changes none but this one. -/
theorem mem_set_shrinkable {l : Ledger} {record : Record} {rules : List Rule} {i : Nat}
    (hdistinct : Distinct (l.applied.get record.direction))
    (hi : shrinkable? l record rules = some i) :
    ∀ a ∈ (l.applied.get record.direction).set i ⟨record, rules⟩, a = ⟨record, rules⟩ ∨
      a ∈ l.applied.get record.direction ∧ a.record.name ≠ record.name := by
  obtain ⟨pre, known, post, hsplit, rfl, hname, -⟩ := shrinkable_cases hi
  rw [hsplit] at hdistinct ⊢
  obtain ⟨-, hknown, hpre⟩ := List.pairwise_append.1 hdistinct
  rw [set_split, ← hname]
  intro a ha
  rcases List.mem_append.1 ha with ha | ha
  · exact .inr ⟨List.mem_append_left _ ha, hpre a ha known List.mem_cons_self⟩
  · rcases List.mem_cons.1 ha with rfl | ha
    · exact .inl rfl
    · refine .inr ⟨List.mem_append_right _ (List.mem_cons_of_mem _ ha), ?_⟩
      exact Ne.symm ((List.pairwise_cons.1 hknown).1 a ha)

theorem enforced_shrink {b : Backend} (hU : s.Laid U) (hchecked : Laid { s with backend := b } U)
    (hmeets : s.ledger.Meets wanted) (hsound : Sound dir wanted) (haligned : Aligned dir U)
    {record : Record} {rules : List Rule} (ho : (Operation.apply record rules).Proper dir) {i : Nat}
    (hi : shrinkable? s.ledger record rules = some i)
    (h : shrink { s with backend := b } i record rules = (.ok (), s')) :
    Ledger.sameRules (s'.enforced record.direction)
        ((s'.ledger.applied.get record.direction).flatMap (·.rules)) = true ↔
      s.KeptInOrder record rules := by
  have hworked := worked_shrink { s with backend := b } i record rules
  obtain ⟨V, hV, hthin, hgone⟩ := hchecked.shrink i record rules
  rw [h] at hworked hV hgone
  have happlied : s'.ledger.applied.get record.direction =
      keptRecords s.ledger record rules ++ [] := by
    rw [keptRecords, hi, hworked.applied, List.append_nil]
    exact PerDirection.get_modify_self ..
  have hVd : (U.set record.direction V).get record.direction =
      ((U.get record.direction).filter fun e =>
        !Layout.passes (stale record.name rules) e) ++ entriesOf [] := by
    rw [PerDirection.get_set_self, hthin.eq_of_none (hgone rfl), entriesOf_nil, List.append_nil]
  refine enforced_iff hU hV haligned ((hmeets.shrink hsound ho.1 hi).congr hworked.applied)
    (hsound.demand ho) happlied hVd (fun e _ hnone => ?_) fun e he name hname => ?_
  · simp [Layout.passes, stale, hnone]
  · have hmem := mem_set_shrinkable (hmeets.distinct hsound record.direction) hi
    obtain ⟨-, -, -, -, -, -, -, -, hsync⟩ := shrinkable_cases hi
    have hstale : (!Layout.passes (stale record.name rules) e) = true ↔
        (name = record.name → (rules.any fun x => x.sameMatch e.2) = true) := by
      simp [Layout.passes, stale, hname, sameMatch_body, imp_iff_not_or]
    rw [hstale, asks_iff, keptRecords, hi, List.append_nil]
    -- of its own record an apply keeps what the new rules ask for, of others all that they have
    constructor
    · rintro ⟨hasked, a, ha, rfl⟩
      refine ⟨a, ha, rfl, ?_⟩
      rcases hmem a ha with rfl | ⟨hold, -⟩
      · exact hasked rfl
      · exact any_sameMatch_of_inSync
          ((inSync_iff hU.records _ a).1 (inSync_of_firstOutOfSync hsync a hold)) he hname
    · rintro ⟨a, ha, rfl, hasked⟩
      refine ⟨fun hrecord => ?_, a, ha, rfl⟩
      rcases hmem a ha with rfl | ⟨-, hne⟩
      · exact hasked
      · exact absurd hrecord hne

theorem enforced_rebuild {b : Backend} (hU : s.Laid U) (hchecked : Laid { s with backend := b } U)
    (hmeets : s.ledger.Meets wanted) (hsound : Sound dir wanted) (haligned : Aligned dir U)
    {record : Record} {rules : List Rule} (ho : (Operation.apply record rules).Proper dir)
    (hquiet : shrinkable? s.ledger record rules = none)
    (h : settle (work { s with backend := b } (.apply record rules)) = (.ok (), s')) :
    Ledger.sameRules (s'.enforced record.direction)
        ((s'.ledger.applied.get record.direction).flatMap (·.rules)) = true ↔
      s.KeptInOrder record rules := by
  obtain ⟨hboth, hs'⟩ := Prod.mk.inj h
  obtain ⟨hok, -⟩ := Outcome.both_eq_ok.1 hboth
  obtain ⟨V, hV, ⟨hfailed, -⟩ | ⟨k, ⟨hself, -⟩, hall⟩⟩ := hchecked.work_apply record rules
  · exact absurd hok hfailed
  · have happlied : s'.ledger.applied = s.ledger.applied.set record.direction
        (place (s.ledger.applied.get record.direction) record rules).entries := by
      rw [← hs', (tuned_updateDefaults _).applied, applied_work_apply]
    have hsplit : s'.ledger.applied.get record.direction =
        keptRecords s.ledger record rules ++ rebuiltPart s.ledger record rules := by
      rw [keptRecords, hquiet, keptPart_append, happlied, PerDirection.get_set_self]
    have hV' : s'.Laid V := by
      rw [← hs']
      exact hV.updateDefaults
    rw [List.take_of_length_le (hall hok)] at hself
    refine enforced_iff hU hV' haligned ((hmeets.place hsound ho.1 rules).congr happlied)
      (hsound.demand ho) hsplit hself (fun e _ hnone => by simp [hnone]) fun e he name hname => ?_
    have hne := keptPart_ne hmeets hsound ho
    have hsync := keptPart_inSync hU record rules
    rw [asks_iff, keptRecords, hquiet, Layout.passes_ofNames, hname, Option.any_some,
      Bool.not_eq_true']
    constructor
    · rintro ⟨hgone, a, ha, rfl⟩
      rcases List.mem_append.1 ha with ha | ha
      · exact ⟨a, ha, rfl, any_sameMatch_of_inSync (hsync a ha) he hname⟩
      · -- the entries of the rebuilt records were all taken out
        have hcontains : ((rebuiltPart s.ledger record rules).map (·.record.name)).contains
            a.record.name = true := List.contains_iff_mem.2 (List.mem_map_of_mem ha)
        exact absurd hcontains (Bool.eq_false_iff.1 hgone)
    · rintro ⟨a, ha, rfl, -⟩
      exact ⟨hne a ha, a, List.mem_append_left _ ha, rfl⟩

/-! ### What an apply leaves behind -/

/-- In a chain that is complete there is nothing to leave out. -/
theorem Filed.enforced {s₀ : Site} (hU : s.Laid U)
    (h : Filed (s₀.found.get d) (s.ledger.applied.get d) True (U.get d)) :
    Ledger.sameRules (s.enforced d)
      (s₀.chain d ++ (s.ledger.applied.get d).flatMap (·.rules)) = true := by
  have hchain := (Ledger.sameRules_iff _ _).1 ((get_found s₀ d ▸ h).sameRules hU)
  have hkeep : ((U.get d).filter fun e => !e.1.any fun name => !s.applies name) = U.get d := by
    obtain ⟨k, hL, -⟩ := h
    refine List.filter_eq_self.2 fun e he => ?_
    have htag : (e.1, e.2.body) ∈ Layout.tags (U.get d) := List.mem_map_of_mem he
    rw [hL] at htag
    -- entries found at creation have no name, and all others that of an applied record
    rcases List.mem_append.1 htag with htag | htag
    · obtain ⟨x, hx, heq⟩ := List.mem_map.1 htag
      have hnone : e.1 = none := (congrArg Prod.fst heq).symm.trans (owner_of_mem_found x hx)
      simp [hnone]
    · obtain ⟨x, hx, heq⟩ := List.mem_map.1 htag
      obtain ⟨a, ha, r, -, rfl⟩ := mem_entriesOf.1 hx
      have hname : e.1 = some a.record.name := (congrArg Prod.fst heq).symm
      simp [hname, applies_of_named ⟨a, List.mem_of_mem_take ha, rfl⟩]
  rw [Ledger.sameRules_iff, Site.enforced, hU.map_body_leavingOut d fun _ _ => rfl, hkeep,
    ← Layout.map_body_rules, ← chain_eq hU.holds, hchain]

/-- The applied records are those asked for, in the order of evaluation, and an
apply that succeeds leaves the chain in this order just if the rules that it
keeps were in this order. As long as no deletion has failed, the chain is always
in this order, behind what was there before the firewall. -/
theorem order_repaired_iff {s₀ : Site} (hs : s₀.Created) {ops : List Operation}
    (hops : ∀ o ∈ ops, o.Proper dir) {record : Record} {rules : List Rule}
    (ho : (Operation.apply record rules).Proper dir)
    (h : (s₀.run ops).step (.apply record rules) = (.ok (), s)) :
    s.ledger.Meets (Operation.demands (heard s₀ (ops ++ [.apply record rules]))) ∧
    (Ledger.sameRules (s.enforced record.direction)
        ((s.ledger.applied.get record.direction).flatMap (·.rules)) = true ↔
      (s₀.run ops).KeptInOrder record rules) ∧
    (s.backend.failures Call.deletes = s₀.backend.failures Call.deletes →
      Ledger.sameRules (s.enforced record.direction)
        (s₀.chain record.direction ++
          (s.ledger.applied.get record.direction).flatMap (·.rules)) = true) := by
  obtain ⟨hlaid, -⟩ := hs.laid
  obtain ⟨hmeets, hsound⟩ := meets_run hs.meets (sound_nil dir) hops
  refine ⟨?_, ?_, fun hfine => ?_⟩
  · have hall : ∀ o ∈ ops ++ [.apply record rules], o.Proper dir := by
      intro o hmem
      rcases List.mem_append.1 hmem with hmem | hmem
      · exact hops o hmem
      · exact List.mem_singleton.1 hmem ▸ ho
    have hrun : s₀.run (ops ++ [.apply record rules]) = s := by rw [run_concat, h]
    have hlast := (meets_run hs.meets (sound_nil dir) hall).1
    rwa [hrun] at hlast
  · -- rules found at creation have no name, so none is in the wrong chain
    have hstart : Aligned dir s₀.found := fun d e he name hname => by
      rw [owner_of_mem_found e he] at hname
      cases hname
    obtain ⟨U, hU, haligned⟩ := aligned_run hlaid hs.meets (sound_nil dir) hops hstart
    have hchecked := hU.checkAlive
    obtain ⟨b, -, ⟨e, -, hstep⟩ | ⟨halive, ⟨record', rules', i, happly, hquiet, hstep⟩ |
      ⟨hquiet, hstep⟩⟩⟩ := step_cases (s₀.run ops) (.apply record rules) <;> rw [hstep] at h
    · cases h
    · rw [halive] at hchecked
      cases happly
      exact enforced_shrink hU hchecked hmeets hsound haligned ho hquiet h
    · rw [halive] at hchecked
      exact enforced_rebuild hU hchecked hmeets hsound haligned ho hquiet h
  · have hle := failures_le_run s₀ ops Call.deletes
    have hle' := failures_le_step (s₀.run ops) (.apply record rules) Call.deletes
    rw [h] at hle'
    dsimp only at hle'
    obtain ⟨U, hU, hfiled⟩ := filed_run Call.deletes_delete False.elim hlaid
      (fun _ => owner_of_mem_found) hs.meets (sound_nil dir) hops
      (fun d => (hs.filed d).mono False.elim) (by omega)
    obtain ⟨V, hV, hcomplete⟩ := filed_step Call.deletes_delete hU (fun _ => owner_of_mem_found)
      hmeets hsound ho hfiled (by rw [h]; dsimp only; omega)
    rw [h] at hV hcomplete
    exact ((hcomplete record.direction).mono fun _ => ⟨rfl, .inr rfl⟩).enforced hV

instance (s : Site) (record : Record) (rules : List Rule) :
    Decidable (s.KeptInOrder record rules) :=
  inferInstanceAs (Decidable (_ = true))

/-- A record is put in front of another one, whose rules are lost on the way. Put
there again, it finds nothing that is kept, and both get their places. -/
theorem order_repaired_of_lost :
    let s₀ := newborn { Backend.empty with
      faults := fun n _ _ => if n = 15 then some (.lost "") else none }
    let forward : Rule := { Rule.blank with action := .forward }
    let o := Operation.apply (.plain "a" 5 .incoming) [Rule.blank]
    let s := s₀.run [.apply (.plain "b" 7 .incoming) [forward], o]
    s.chain .incoming = [] ∧ (s.step o).1 = .ok () ∧
      Ledger.sameRules ((s.step o).2.enforced .incoming) [Rule.blank, forward] = true := by
  intro s₀ forward o s
  have hs : s₀.Created :=
    newborn_created (.start fun n _ _ => if n = 15 then some (.lost "") else none) rfl
  have hops : ∀ o' ∈ [.apply (.plain "b" 7 .incoming) [forward], o],
      o'.Proper fun _ => .incoming := by
    simp [Operation.Proper, Record.plain, o]
  have ho : o.Proper fun _ => .incoming := ⟨rfl, List.pairwise_singleton _ _⟩
  have hok : (s.step o).1 = .ok () := by decide
  have hkept : s.KeptInOrder (.plain "a" 5 .incoming) [Rule.blank] := by decide
  have hrules : ((s.step o).2.ledger.applied.get .incoming).flatMap (·.rules) =
      [Rule.blank, forward] := by decide
  have hstep : s.step o = (.ok (), (s.step o).2) := by rw [← hok]
  have hrepaired := (order_repaired_iff hs hops ho hstep).2.1.2 hkept
  exact ⟨by decide, hok, hrules ▸ hrepaired⟩

/-- A record is moved in front of another one, but no rule can be deleted. Moved
there again, it finds both records in sync, and their rules keep the old
order. -/
theorem order_left_wrong :
    let s₀ := newborn { Backend.empty with
      faults := fun _ _ call => if call.deletes then some (.lost "") else none }
    let forward : Rule := { Rule.blank with action := .forward }
    let o := Operation.apply (.plain "b" 3 .incoming) [forward]
    let s := s₀.run [.apply (.plain "a" 5 .incoming) [Rule.blank],
      .apply (.plain "b" 7 .incoming) [forward], o]
    s₀.Created ∧ (s.step o).1 = .ok () ∧
      ((s.step o).2.ledger.applied.get .incoming).flatMap (·.rules) = [forward, Rule.blank] ∧
      (s.step o).2.enforced .incoming = [Rule.blank, { forward with id := 1 }] := by
  have hs := newborn_created
    (.start fun _ _ call => if call.deletes then some (.lost "") else none) rfl
  exact ⟨hs, by decide, by decide, by decide⟩

end Site

end PodFirewall
