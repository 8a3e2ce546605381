import PodFirewall.Proofs.Firewall.Canonical
import PodFirewall.Proofs.Firewall.Commitment

/-!
Firewalls next to each other in one service. A call is about one firewall, so
whatever is done to a firewall leaves those of other names alone. A firewall is
in step with its ledger if its chains hold what creation left there and the
rules of the applied records, and its default actions are what these ask for.
It stays so as long as no call fails, also while others are worked on.
-/

namespace PodFirewall

namespace Backend

/-! ### Properties that calls about one firewall keep -/

/-- Whether a property of services is kept by all calls about a firewall. -/
def Closed (name : String) (P : Backend → Prop) : Prop :=
  ∀ {b b' : Backend} {call : Call} {r : Except BackendError Unit},
    b.perform name call = (r, b') → P b → P b'

namespace Closed

variable {name : String} {P : Backend → Prop} {b b' : Backend}

theorem find (hP : Closed name P) (hb : P b) {r : Except BackendError Bool}
    (h : b.find name = (r, b')) : P b' := by
  unfold Backend.find at h
  split at h <;> rename_i hp <;> obtain ⟨-, rfl⟩ := Prod.mk.inj h <;> exact hP hp hb

theorem read (hP : Closed name P) (hb : P b) {c : Chain} {r : Except BackendError (List Rule)}
    (h : b.read name c = (r, b')) : P b' := by
  unfold Backend.read at h
  split at h <;> rename_i hp <;> obtain ⟨-, rfl⟩ := Prod.mk.inj h <;> exact hP hp hb

theorem performAll (hP : Closed name P) (hb : P b) (calls : List Call) :
    P (b.performAll name calls).2 := by
  induction calls generalizing b with
  | nil => exact hb
  | cons call rest ih =>
    unfold Backend.performAll
    split <;> rename_i hperform
    · exact ih (hP hperform hb)
    · exact hP hperform hb

theorem clearChain (hP : Closed name P) (hb : P b) (c : Chain) : P (Site.clearChain b name c).2 := by
  unfold Site.clearChain
  split <;> rename_i hread
  · exact hP.read hb hread
  · exact hP.performAll (hP.read hb hread) _

theorem clearChains (hP : Closed name P) (hb : P b) (chains : List Chain) :
    P (Site.clearChains b name chains).2 := by
  induction chains generalizing b with
  | nil => exact hb
  | cons c rest ih =>
    have hcleared := hP.clearChain hb c
    unfold Site.clearChains
    split <;> rename_i hclear <;> rw [hclear] at hcleared
    · exact ih hcleared
    · exact hcleared

theorem create (hP : Closed name P) (hb : P b) : P (Site.create b name).2 := by
  have hprepared : P (Site.prepare b name).2 := by
    unfold Site.prepare
    split <;> rename_i hfind
    · exact hP.find hb hfind
    · exact hP.clearChains (hP.find hb hfind) _
    · exact hP rfl (hP.find hb hfind)
  unfold Site.create
  split <;> rename_i hprepare <;> rw [hprepare] at hprepared
  · exact hprepared
  · rename_i b'
    have hset := hP.performAll hprepared
      (Chain.all.flatMap fun c => [.setDefault c .forward, .commit c])
    split <;> rename_i hperform <;> rw [hperform] at hset <;> exact hset

open Site (Stable)

/-- What calls about a firewall keep, all parts of operations on it keep. -/
theorem stable (hP : Closed name P) : Stable fun s => s.name = name ∧ P s.backend where
  ledger _ h := h
  checkAlive {s} := by
    rintro ⟨rfl, h⟩
    unfold Site.checkAlive
    split <;> rename_i hfind <;> exact ⟨rfl, hP.find h hfind⟩
  inject {s} d rules := by
    rintro ⟨rfl, h⟩
    unfold Site.inject
    split
    · exact ⟨rfl, h⟩
    · split <;> rename_i hread
      · exact ⟨rfl, hP.read h hread⟩
      · have hlisted := hP.read h hread
        dsimp only
        split <;> rename_i happend
        · exact ⟨rfl, hP happend hlisted⟩
        · exact ⟨rfl, hP rfl (hP happend hlisted)⟩
  remove {s} d rules := by
    rintro ⟨rfl, h⟩
    -- the induction is on the rules still to be deleted, each by one call
    have hdeleted (rules : List Rule) (out : Site.Deletion) {s' : Site} (hname : s'.name = s.name)
        (h : P s'.backend) : (Site.deleteEach d rules out s').2.name = s.name ∧
          P (Site.deleteEach d rules out s').2.backend := by
      induction rules generalizing out s' with
      | nil => exact ⟨hname, h⟩
      | cons r rest ih =>
        unfold Site.deleteEach
        split <;> rename_i hperform <;> rw [hname] at hperform <;>
          exact ih _ hname (hP hperform h)
    obtain ⟨hname, h⟩ := hdeleted (Rule.sortDown rules) ⟨[], false⟩ rfl h
    unfold Site.remove
    split
    · exact ⟨rfl, ‹_›⟩
    · split
      rename_i hs'
      rw [hs'] at hname h
      split
      · exact ⟨hname, hP (by rw [← hname]) h⟩
      · exact ⟨hname, h⟩
  updateDefault {s} d := by
    rintro ⟨rfl, h⟩
    rcases Site.updateDefault_cases s d with
      ⟨-, hs⟩ | ⟨-, ⟨e, b, hset, hs⟩ | ⟨b, hset, ⟨e, b', hcommit, hs⟩ | ⟨b', hcommit, hs⟩⟩⟩ <;>
      rw [hs]
    · exact ⟨rfl, h⟩
    · exact ⟨rfl, hP hset h⟩
    · exact ⟨rfl, hP hcommit (hP hset h)⟩
    · exact ⟨rfl, hP hcommit (hP hset h)⟩

theorem step {s : Site} (hP : Closed s.name P) (hs : P s.backend) (o : Operation) :
    (s.step o).2.name = s.name ∧ P (s.step o).2.backend :=
  hP.stable.step ⟨rfl, hs⟩ o

end Closed

theorem closed_reached (name : String) : Closed name Reached := by
  intro b b' call r h hb
  have hcall := hb.call name call
  rwa [h] at hcall

theorem closed_failures_le (name : String) (n : Nat) (kind : Call → Bool) :
    Closed name fun b => n ≤ b.failures kind :=
  fun h hb => Nat.le_trans hb (failures_le_perform h kind)

/-- Whether a service differs from an earlier one by calls about other firewalls
only. -/
structure Spares (other : String) (b₀ b : Backend) : Prop where
  held : b.firewalls.get? other = b₀.firewalls.get? other
  log : ∃ new, b.log = new ++ b₀.log ∧ ∀ e ∈ new, e.firewall ≠ other

theorem Spares.refl (other : String) (b : Backend) : Spares other b b :=
  ⟨rfl, [], rfl, List.forall_mem_nil _⟩

theorem get?_effect_of_ne {b : Backend} {name other : String} (hne : other ≠ name) {call : Call}
    {m : OrdMap String FirewallState} (h : b.effect name call = .ok m) :
    m.get? other = b.firewalls.get? other := by
  unfold effect at h
  split at h
  · rw [Except.ok.inj h]
  · rw [← Except.ok.inj h, OrdMap.get?_insert_of_ne _ _ hne]
  · rw [Except.ok.inj h]
  · cases h
  · rw [← Except.ok.inj h, OrdMap.get?_erase_of_ne _ hne]
  · split at h
    · rw [← Except.ok.inj h, OrdMap.get?_insert_of_ne _ _ hne]
    · cases h

theorem closed_spares {name other : String} (hne : other ≠ name) (b₀ : Backend) :
    Closed name (Spares other b₀) := by
  rintro b b' call r h ⟨hheld, new, hnew, hothers⟩
  refine ⟨?_, ⟨name, call, r.toBool⟩ :: new, by rw [log_perform h, hnew]; rfl,
    List.forall_mem_cons.2 ⟨hne.symm, hothers⟩⟩
  rw [← hheld]
  rcases r with e | ⟨⟨⟩⟩
  · rw [perform_error h]
  · obtain ⟨m, hm, rfl⟩ := perform_ok h
    exact get?_effect_of_ne hne hm

theorem Spares.remnant {name : String} {b₀ b : Backend} (h : Spares name b₀ b) (d : Direction) :
    b.remnant name d = b₀.remnant name d := by
  rw [Backend.remnant, Backend.remnant, h.held]

end Backend

namespace Site

open Backend (Spares)

variable {s s₀ : Site} {dir : String → Direction} {left : PerDirection Layout} {o : Operation}
  {kind : Call → Bool} {d : Direction}

/-! ### Firewalls in step with their ledgers -/

/-- If no call failed, none of a kind did. -/
theorem Later.failures_eq (h : Later s₀ s)
    (hfine : s.backend.failures Call.any = s₀.backend.failures Call.any) :
    s.backend.failures kind = s₀.backend.failures kind := by
  obtain ⟨-, new, hnew⟩ := h
  rw [Backend.failures, Backend.failures, hnew, List.countP_append] at hfine ⊢
  have hle : new.countP (fun e => !e.done && kind e.call) ≤
      new.countP fun e => !e.done && Call.any e.call :=
    List.countP_mono_left fun e _ h => by
      rw [Bool.and_eq_true] at h ⊢
      exact ⟨h.1, rfl⟩
  omega

/-- Whether a firewall does what its ledger says: behind what was left at first
its chains hold the rules of the applied records, these are in the order of
evaluation, and the default actions are those due. -/
structure InStep (dir : String → Direction) (left : PerDirection Layout) (s : Site) : Prop where
  filed : ∃ U, s.Laid U ∧ ∀ d, Filed (left.get d) (s.ledger.applied.get d) True (U.get d)
  meets : ∃ wanted, s.ledger.Meets wanted ∧ Sound dir wanted
  upright : ∀ d, s.Believes d (due s.ledger d) (due s.ledger d)

/-- What is left of a firewall belongs to no name. -/
theorem owner_of_mem_remnants {b : Backend} {name : String} :
    ∀ e ∈ (b.remnants name).get d, e.1 = none := by
  intro e he
  rw [Backend.get_remnants] at he
  obtain ⟨r, -, rfl⟩ := List.mem_map.1 he
  rfl

namespace InStep

variable {b₀ : Backend}

/-- A proper operation in which no call fails succeeds and keeps its firewall in
step. -/
theorem step (h : s.InStep dir left) (hleft : ∀ d, ∀ e ∈ left.get d, e.1 = none)
    (ho : o.Proper dir)
    (hfine : (s.step o).2.backend.failures Call.any = s.backend.failures Call.any) :
    (s.step o).1 = .ok () ∧ (s.step o).2.InStep dir left := by
  obtain ⟨U, hU, hfiled⟩ := h.filed
  obtain ⟨wanted, hmeets, hsound⟩ := h.meets
  have hok : (s.step o).1 = .ok () := (failures_step (fun _ => rfl) hU o).resolve_right
    (Nat.not_lt_of_le (Nat.le_of_eq hfine))
  have hlater := (stable_later s).step (.refl s) o
  obtain ⟨V, hV, hV'⟩ := filed_step (fun _ _ => rfl) hU hleft hmeets hsound ho hfiled hfine
  exact ⟨hok, ⟨V, hV, fun d => (hV' d).mono fun _ => ⟨hok, .inl trivial⟩⟩,
    ⟨_, meets_step hmeets hsound ho, sound_heard hsound s ho⟩,
    fun d => (h.upright d).step_upright o (hlater.failures_eq hfine)⟩

/-- A firewall stays in step while others are worked on. -/
theorem spared {f : Deployed} {b₀ b : Backend} (h : InStep dir left ⟨f, b₀⟩)
    (hspares : Spares f.name b₀ b) : InStep dir left ⟨f, b⟩ := by
  obtain ⟨U, ⟨⟨fw, hfw, hrules⟩, hrecords⟩, hfiled⟩ := h.filed
  obtain ⟨hheld, new, hnew, hothers⟩ := hspares
  refine ⟨⟨U, ⟨⟨fw, hheld.trans hfw, hrules⟩, hrecords⟩, hfiled⟩, h.meets, fun d => ?_⟩
  refine (h.upright d).extend rfl rfl ?_ ⟨new, hnew, fun e he => ?_⟩
  · rw [standing, standing, held?, held?, hheld]
  · simp [LogEntry.sets, hothers e he]

/-- A new firewall is in step, with what was left of the one that had its
name. -/
theorem created {b b' : Backend} {name : String} {f : Deployed} (hb : b.Reached)
    (hcreate : create b name = (.ok f, b')) : InStep dir (b.remnants name) ⟨f, b'⟩ := by
  obtain ⟨b₁, hprepare, hset, rfl⟩ := create_cases hcreate
  have hs : Created ⟨⟨name, { Ledger.empty with defaults := ⟨some .forward, some .forward⟩ }⟩, b'⟩ :=
    ⟨b, hb, hcreate⟩
  obtain ⟨hholds, -⟩ := chain_of_setUp (s := ⟨⟨name, _⟩, b'⟩) hb hprepare hset
  refine ⟨⟨_, ⟨hholds, records_of_empty rfl fun _ => owner_of_mem_remnants⟩, fun d => ?_⟩,
    ⟨[], hs.meets, sound_nil dir⟩, fun d => ?_⟩
  · have hnone : PerDirection.get (⟨[], []⟩ : PerDirection (List Applied)) d = [] := by
      cases d <;> rfl
    exact ⟨0, by simp [Layout.tags], fun _ => (congrArg List.length hnone).le⟩
  · obtain ⟨hbelieves, hdue⟩ := hs.believes d
    rwa [hdue]

/-- What a firewall that is in step holds. -/
theorem chain (h : InStep dir (b₀.remnants s.name) s) (d : Direction) :
    Ledger.sameRules (s.chain d)
        (b₀.remnant s.name d ++ (s.ledger.applied.get d).flatMap (·.rules)) = true ∧
      (s.chain d).map (·.id) = List.range (s.chain d).length := by
  obtain ⟨U, hU, hfiled⟩ := h.filed
  have hfiled := hfiled d
  rw [Backend.get_remnants] at hfiled
  exact ⟨hfiled.sameRules hU, by rw [chain_eq hU.holds, Layout.map_id_rules, Layout.length_rules]⟩

end InStep

/-- Whether two firewalls are in the same state: the same records apply, the
chains hold the same rules under the same numbers, and the default actions are
the same. -/
structure Same (s s' : Site) : Prop where
  name : s.name = s'.name
  applied : s.ledger.applied = s'.ledger.applied
  chain : ∀ d, Ledger.sameRules (s.chain d) (s'.chain d) = true ∧
    (s.chain d).map (·.id) = (s'.chain d).map (·.id)
  standing : ∀ d, s.standing d = s'.standing d

/-- Firewalls in step, on which the same records apply, are in the same state if
these are told apart by their keys and the same was left at first. -/
theorem InStep.same {s' : Site} {dir' : String → Direction} {b₀ b₀' : Backend}
    (h : InStep dir (b₀.remnants s.name) s) (h' : InStep dir' (b₀'.remnants s'.name) s')
    (hname : s.name = s'.name) (hleft : ∀ d, b₀.remnant s.name d = b₀'.remnant s.name d)
    (hmem : ∀ d a, a ∈ s.ledger.applied.get d ↔ a ∈ s'.ledger.applied.get d)
    (hkeys : ∀ d, ∀ a ∈ s.ledger.applied.get d, ∀ a' ∈ s.ledger.applied.get d,
      a.record.orderKey = a'.record.orderKey → a.record.name = a'.record.name) : Same s s' := by
  obtain ⟨wanted, hmeets, hsound⟩ := h.meets
  obtain ⟨wanted', hmeets', hsound'⟩ := h'.meets
  have happlied (d : Direction) : s.ledger.applied.get d = s'.ledger.applied.get d := by
    -- the order of evaluation leaves one list for the same records
    have hdistinct := hmeets.distinct hsound d
    refine eq_of_inOrder (hmeets.inOrder d) (hmeets'.inOrder d) ?_
      (perm_of_distinct hdistinct (hmeets'.distinct hsound' d) (hmem d))
    exact hdistinct.imp_of_mem fun ha ha' hne hkey => hne (hkeys d _ ha _ ha' hkey)
  have hledger : s.ledger.applied = s'.ledger.applied := PerDirection.ext_get happlied
  have hbodies (d : Direction) : (s.chain d).map Rule.body = (s'.chain d).map Rule.body := by
    rw [(Ledger.sameRules_iff _ _).1 (h.chain d).1, (Ledger.sameRules_iff _ _).1 (h'.chain d).1,
      happlied, ← hname, hleft]
  have hlength (d : Direction) : (s.chain d).length = (s'.chain d).length := by
    simpa using congrArg List.length (hbodies d)
  refine ⟨hname, hledger, fun d => ⟨(Ledger.sameRules_iff _ _).2 (hbodies d), ?_⟩, fun d => ?_⟩
  · rw [(h.chain d).2, (h'.chain d).2, hlength]
  · rw [(h.upright d).truth, (h'.upright d).truth, due_congr hledger]

end Site

end PodFirewall
