import PodFirewall.Proofs.Manager.Exchange
import PodFirewall.Proofs.Resolve.Twins

/-!
What a manager asks of the firewalls, if its policies have plain names and
distinct templates. On the firewall of a group it applies records of policies of
this namespace only, named after their places, with rules of which no two say
the same. This also holds when records are resolved anew, although their rules
may then be those of another record with this name.
-/

namespace PodFirewall

namespace Record

structure Fits (group : PodGroup) (r : Record) : Prop where
  wellNamed : r.WellNamed
  namespaceName : r.subject.namespaceName = group.namespaceName
  unmarked : r.Unmarked
  nodup : r.templates.Nodup

theorem WellNamed.placed {r : Record} (h : r.WellNamed) : r.Placed := h.2

/-- The name of a record that is named after its place tells its direction. -/
theorem exists_direction : ∃ dir : String → Direction, ∀ r : Record, r.Placed →
    r.direction = dir r.name := by
  classical
  refine ⟨fun name => if h : ∃ r : Record, r.Placed ∧ r.name = name then h.choose.direction
    else .incoming, fun r hr => ?_⟩
  have hnamed : ∃ r' : Record, r'.Placed ∧ r'.name = r.name := ⟨r, hr, rfl⟩
  dsimp only
  rw [dif_pos hnamed]
  exact hr.direction_eq hnamed.choose_spec.1 hnamed.choose_spec.2.symm

end Record

namespace Operation

/-- Whether an operation applies no other records than those that fit a group,
and no rule twice. -/
def Fits (group : PodGroup) : Operation → Prop
  | .apply record rules => record.Fits group ∧ rules.Pairwise fun a b => a.sameMatch b = false
  | _ => True

variable {group : PodGroup} {o : Operation}

theorem Fits.asks (h : o.Fits group) : o.Asks (Record.Fits group) := by
  cases o with
  | apply record rules => exact h.1
  | cease name => trivial
  | ceaseParent dialect parent => trivial

theorem Fits.proper {dir : String → Direction}
    (hdir : ∀ r : Record, r.Placed → r.direction = dir r.name) (h : o.Fits group) :
    o.Proper dir := by
  cases o with
  | apply record rules => exact ⟨hdir record h.1.wellNamed.placed, h.2⟩
  | cease name => trivial
  | ceaseParent dialect parent => trivial

end Operation

namespace Fleet

variable {f f' : Fleet}

/-- Whether the records that apply have names of their own, and on the firewall of
each group they are of a kind. -/
def Suits (P : PodGroup → Record → Prop) (f : Fleet) : Prop :=
  ∀ group l, f.ledger? group = some l → l.Tidy ∧ l.Applies (P group)

abbrev Fitting (f : Fleet) : Prop := f.Suits Record.Fits

namespace Suits

variable {P : PodGroup → Record → Prop}

theorem neat (h : f.Suits P) (hplaced : ∀ group r, P group r → r.Placed) : f.All Ledger.Neat :=
  fun group l hl => ⟨(h group l hl).1, fun d a ha => hplaced group _ ((h group l hl).2 d a ha)⟩

theorem of_ledgers (h : f.Suits P) (hledgers : ∀ group l', f'.ledger? group = some l' →
    f.ledger? group = some l' ∨ l'.rules = ∅ ∧ l'.applied = ⟨[], []⟩) : f'.Suits P := by
  intro group l' hl'
  rcases hledgers group l' hl' with hl | ⟨hrules, happlied⟩
  · exact h group l' hl
  · exact (Ledger.Tidy.invariant _).fresh l' hrules happlied

theorem steps (h : f.Suits P) (hsteps : Steps (fun group o => o.Asks (P group)) f f') :
    f'.Suits P := by
  intro group l' hl'
  have hsome := hsteps.isSome_ledger? group
  rw [hl'] at hsome
  obtain ⟨l, hl⟩ := Option.isSome_iff_exists.1 hsome.symm
  obtain ⟨l'', hl'', hkeep⟩ := hsteps.lift
    (R := fun l l' => l.Tidy ∧ l.Applies (P group) → l'.Tidy ∧ l'.Applies (P group))
    (fun _ h => h) (fun h h' hl => h' (h hl))
    (fun s o ho => (Ledger.Tidy.invariant (P group)).step s o ho) hl
  rw [hl', Option.some.injEq] at hl''
  exact hl'' ▸ hkeep (h group l hl)

end Suits

theorem Fitting.neat (h : f.Fitting) : f.All Ledger.Neat :=
  Suits.neat h fun _ _ hr => hr.wellNamed.placed

theorem Fitting.steps (h : f.Fitting) (hsteps : Steps (fun group o => o.Fits group) f f') :
    f'.Fitting :=
  Suits.steps h (hsteps.mono fun _ _ ho => ho.asks)

end Fleet

namespace Manager

open Fleet (Steps)

variable {m : Manager} {p : Policy} {group : PodGroup} {resolver : Resolver}

/-! ### Policies -/

/-- Whether a policy has a plain name, and its records have distinct templates. -/
structure Regular (m : Manager) (p : Policy) : Prop where
  plainName : p.PlainName
  nodup : ∀ rs, m.records p = .ok (some rs) → ∀ r ∈ rs, r.templates.Nodup

theorem Regular.fits (h : m.Regular p) (group : PodGroup) : ∀ r ∈ m.wanted p group, r.Fits group := by
  intro r hr
  obtain ⟨rs, hrs, hr, hcovers⟩ := mem_wanted.1 hr
  obtain ⟨service, hservice⟩ := records_some hrs
  rw [Subject.covers, Bool.and_eq_true, beq_iff_eq] at hcovers
  exact ⟨h.plainName.supplies service rs hservice r hr, hcovers.1.symm,
    Policy.unmarked_records hservice r hr, h.nodup rs hrs r hr⟩

theorem fits_apply {record known : Record} {rules : List Rule} (hrecord : record.Fits group)
    {group' : PodGroup} (hknown : known.Fits group') (hrules : resolver.resolve known = .ok rules) :
    (Operation.apply record rules).Fits group :=
  ⟨hrecord, Resolver.noTwins_resolve hknown.unmarked hknown.nodup hrules⟩

theorem fits_applyEach {records : List Record} (h : ∀ r ∈ records, r.Fits group) (n : Nat)
    (f : Fleet) : Steps (fun group o => o.Fits group) f
      (applyEach group (resolveAll resolver records) n f).2 := by
  refine steps_applyEach (fun r hr rules hrules => ?_) n f
  obtain ⟨record, hrecord, rfl⟩ := List.mem_map.1 hr
  exact fits_apply (h record hrecord) (h record hrecord) hrules

theorem fits_removePolicy (m : Manager) (dialect : Dialect) (key : ObjectKey) :
    Steps (fun group o => o.Fits group) m.fleet (m.removePolicy dialect key).2.fleet :=
  steps_forEach (fun _ _ f => steps_removeFrom trivial f) 0 m.fleet

theorem fits_deployPolicy (h : m.Regular p) :
    Steps (fun group o => o.Fits group) m.fleet (m.deployPolicy p).2.fleet := by
  unfold deployPolicy
  split
  · exact .refl
  · split
    · exact .refl
    · exact fits_removePolicy m _ _
    · rename_i rs hrs
      refine steps_forEach (fun group _ f => ?_) 0 m.fleet
      rw [deployTo_eq]
      split
      · rename_i hcovered
        have hfits := h.fits group
        rw [wanted_of_covered hrs hcovered] at hfits
        exact (fits_applyEach hfits 0 f).trans (steps_ceaseEach (fun _ _ => trivial) _ _)
      · exact steps_removeFrom trivial f

theorem applyEach_append (group : PodGroup) (l l' : List Resolved) (n : Nat) (f : Fleet) :
    applyEach group (l ++ l') n f =
      applyEach group l' (applyEach group l n f).1 (applyEach group l n f).2 := by
  induction l generalizing n f with
  | nil => rfl
  | cons r rest ih =>
    obtain ⟨record, e | rules⟩ := r
    · exact ih _ _
    · exact ih _ _

/-- Applying policies in turn is applying the records of all of them. -/
theorem syncEach_eq {policies : List Policy} {n k : Nat} {f : Fleet}
    (h : (m.syncEach group policies n f).1 = .ok k) :
    applyEach group (resolveAll m.resolver (policies.flatMap (m.wanted · group))) n f =
      (k, (m.syncEach group policies n f).2) := by
  induction policies generalizing n f with
  | nil =>
    rw [← Except.ok.inj h]
    rfl
  | cons p rest ih =>
    rw [List.flatMap_cons, resolveAll, List.map_append, applyEach_append]
    unfold syncEach at h ⊢
    rcases hrecords : m.records p with e | _ | records <;> simp only [hrecords] at h ⊢
    · cases h
    · have hnone : m.wanted p group = [] := by rw [wanted, hrecords]
      rw [hnone]
      exact ih h
    · rw [wanted_of_records hrecords]
      exact ih h

def wantedOn (m : Manager) (group : PodGroup) : List Record :=
  (m.policiesIn group.namespaceName).flatMap (m.wanted · group)

theorem syncGroup_ok {firewall : String} (h : (m.syncGroup group firewall).1 = .ok ()) :
    (applyEach group (resolveAll m.resolver (m.wantedOn group)) 0 m.fleet).1 = 0 ∧
      (m.syncGroup group firewall).2 = { m with
        fleet := (applyEach group (resolveAll m.resolver (m.wantedOn group)) 0 m.fleet).2 } := by
  unfold syncGroup at h ⊢
  rcases hsync : m.syncEach group (m.policiesIn group.namespaceName) 0 m.fleet with ⟨e | k, f⟩ <;>
    rw [hsync] at h
  · cases h
  · obtain rfl := failures_eq_ok.1 h
    have happly := syncEach_eq (congrArg Prod.fst hsync)
    rw [wantedOn, happly, hsync]
    exact ⟨rfl, rfl⟩

/-! ### Refreshing -/

/-- A refresh applies records that fit, though maybe with the rules of another
record with the same name. -/
theorem fits_refresh (hm : m.fleet.Fitting) (affected : Record → Bool) :
    Steps (fun group o => o.Fits group) m.fleet (m.refresh affected).2.fleet := by
  obtain ⟨r, ⟨-, hsteps⟩, hrefresh⟩ := refresh_keeps (m := m)
    (fun r => Recalls (fun record => ∃ group, record.Fits group) m.resolver r ∧
      Steps (fun group o => o.Fits group) m.fleet r.fleet)
    (fun group record => record.Fits group) affected
    (fun r group l ⟨_, hsteps⟩ hl d a ha => (Fleet.Fitting.steps hm hsteps group l hl).2 d a ha)
    (fun r group record ⟨hr, hsteps⟩ hrecord => by
      obtain ⟨hrecalls, hcases⟩ := refreshRecord_cases group ⟨group, hrecord⟩ hr
      refine ⟨hrecalls, hsteps.trans ?_⟩
      -- the rules may be those of another record, which fits its own group
      rcases hcases with ⟨hfleet, -⟩ | ⟨known, rules, ⟨_, hknown⟩, -, -, hrules, hfleet, -⟩ <;>
        rw [hfleet]
      · exact .refl
      · exact steps_attempt _ (fits_apply hrecord hknown hrules))
    ⟨nofun, .refl⟩
  rw [hrefresh]
  exact hsteps

end Manager

end PodFirewall
