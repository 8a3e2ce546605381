import PodFirewall.Manager.Operator
import PodFirewall.Proofs.Manager.Refresh

/-!
Pods change while a worker handles earlier changes. The store of pods takes in
events in between, so what the worker resolves is resolved against pods it has
not handled yet. Once all reported keys are handled, the rules of a record are
those that resolving it gives, exactly if this was not ahead of the worker: at
the last handling that resolved the record, the store gave the same rules as the
pods handled by then. A pod that was seen too early may be gone before it is
handled; then the worker finds no change, and nothing takes its rules away.
-/

namespace PodFirewall

namespace Operator

/-- Where records are resolved against the pods as they were last processed. -/
def processed (o : Operator) : Resolver where
  cluster := { o.manager.cluster with pods := ⟨o.pods.processed, none, true, 0⟩ }
  range := o.manager.range

end Operator

/-- An operator with the keys of pods that were reported and not handled
since. -/
structure Backlog where
  operator : Operator
  queued : List ObjectKey

inductive Turn where
  | observe (event : WatchEvent Pod)
  | handle (now : Nat) (key : ObjectKey)

def Turn.Housed : Turn → Prop
  | observe event => event.Brings Pod.Housed
  | handle _ _ => True

namespace Backlog

open Manager (Result Compiled ToldByName)

def manager (b : Backlog) : Manager := b.operator.manager

def pods (b : Backlog) : Store Pod := b.operator.manager.cluster.pods

/-- A turn, with the result of handling a change. Keys may be handled in any
order, also without having been reported. -/
def step (b : Backlog) : Turn → Result × Backlog
  | .observe event =>
    match b.operator.ingest Watched.pods [event] with
    | (changed, o) => (.ok (), ⟨o, b.queued ++ changed⟩)
  | .handle now key =>
    match b.operator.process Watched.pods now key with
    | (handled, o) =>
      ((handled.map (·.result)).getD (.ok ()), ⟨o, b.queued.filter fun k => k != key⟩)

def run (b : Backlog) (turns : List Turn) : Backlog := turns.foldl (fun b t => (b.step t).2) b

def succeeds (b : Backlog) : List Turn → Bool
  | [] => true
  | t :: rest => (b.step t).1.toBool && (b.step t).2.succeeds rest

/-- Whether resolving a record sees more than the worker has processed. -/
def seesMore (b : Backlog) (r : Record) : Bool :=
  (b.manager.resolver.resolve r).toOption != (b.operator.processed.resolve r).toOption

/-- Whether the rules of a record on the firewall of a group are ahead of the
worker after a turn, if it is known whether they were before. -/
def outruns (b : Backlog) (group : PodGroup) (r : Record) (was : Bool) : Turn → Bool
  | .observe _ => was
  | .handle now key =>
    match b.operator.pods.check key (b.pods.get? key) with
    | none => was
    | some change =>
      if b.manager.renews change group r then (b.step (.handle now key)).2.seesMore r else was

/-- Whether the rules of a record are ahead of the worker after a run: when they
were last resolved, this saw more than the worker had processed. -/
def ahead (group : PodGroup) (r : Record) : Bool → Backlog → List Turn → Bool
  | was, _, [] => was
  | was, b, t :: rest => ahead group r (b.outruns group r was t) (b.step t).2 rest

def Current (b : Backlog) : Prop :=
  ∀ group l, b.manager.fleet.ledger? group = some l → ∀ d, ∀ a ∈ l.applied.get d,
    b.manager.resolver.resolve a.record = .ok a.rules

structure Settled (b : Backlog) : Prop where
  reached : b.manager.Reached fun _ => True
  ready : b.manager.cluster.Ready
  namespaces : ∃ arrived, b.manager.cluster.namespaces.FedBy arrived ∧
    ∀ o ∈ arrived, Namespace.Global o
  pods : ∃ arrived, b.pods.FedBy arrived ∧ ∀ o ∈ arrived, Pod.Housed o
  k8sPolicies : ∃ arrived, b.manager.k8sPolicies.FedBy arrived
  pcnPolicies : ∃ arrived, b.manager.pcnPolicies.FedBy arrived
  handled : b.operator.pods.processed = b.pods.objects
  deployed : b.manager.fleet.All (Ledger.Applies b.manager.Compiled)
  current : b.Current

/-! ### What holds between the turns -/

/-- What turns keep: the pods are told by their stamps and processed unless they
are queued, and the rules of a record are those that the processed pods give,
unless they are ahead. -/
structure Kept (was : PodGroup → Record → Bool) (b : Backlog) : Prop where
  ready : b.manager.cluster.Ready
  one : ∀ n ∈ b.manager.cluster.spaces none, ∀ n' ∈ b.manager.cluster.spaces none,
    n.name = n'.name → n = n'
  told : ToldByName b.manager.Compiled
  pods : ∃ arrived, b.pods.FedBy arrived ∧ (∀ o ∈ arrived, Pod.Housed o) ∧
    Store.Keyed arrived b.operator.pods.processed
  handled : ∀ key ∉ b.queued, b.operator.pods.processed.get? key = b.pods.get? key
  ledgers : b.manager.fleet.All fun l => l.Tidy ∧ l.Applies b.manager.Compiled
  rules : ∀ group l, b.manager.fleet.ledger? group = some l → ∀ d, ∀ a ∈ l.applied.get d,
    b.operator.processed.resolve a.record = .ok a.rules ↔ was group a.record = false

variable {b : Backlog} {was : PodGroup → Record → Bool}

/-- Resolving asks no more of the store of pods than its objects and whether it
is ready. -/
theorem resolve_congr (c : Cluster) (range : Option Ipv4Range) (pods : Store Pod) (r : Record)
    (hready : c.pods.ready = pods.ready) (hobjects : c.pods.objects = pods.objects) :
    Resolver.resolve ⟨c, range⟩ r = Resolver.resolve ⟨{ c with pods }, range⟩ r := by
  obtain ⟨⟨objects, listing, ready, next⟩, namespaces, services⟩ := c
  obtain ⟨objects', listing', ready', next'⟩ := pods
  dsimp only at hready hobjects
  subst hready hobjects
  rfl

theorem Kept.resolve_eq (h : b.Kept was) (hquiet : b.queued = []) (r : Record) :
    b.operator.processed.resolve r = b.manager.resolver.resolve r := by
  have hobjects : b.pods.objects = b.operator.pods.processed :=
    OrdMap.ext_get? fun key => (h.handled key (by simp [hquiet])).symm
  exact (resolve_congr _ _ _ r h.ready.pods hobjects).symm

theorem kept_start (h : b.Settled) : b.Kept fun _ _ => false := by
  obtain ⟨namespaces, hnamespaces, hglobal⟩ := h.namespaces
  obtain ⟨pods, hpods, hhoused⟩ := h.pods
  obtain ⟨_, hk8s⟩ := h.k8sPolicies
  obtain ⟨_, hpcn⟩ := h.pcnPolicies
  have htidy : b.manager.fleet.All fun l => l.Tidy ∧ l.Applies fun _ => True :=
    (h.reached.all (Ledger.Tidy.invariant _) fun _ _ _ _ _ _ _ => trivial).2
  refine ⟨h.ready, fun n hn n' hn' => Cluster.eq_of_name hnamespaces hglobal hn hn',
    fun r r' hr hr' => hr.eq hk8s hpcn hr', ⟨pods, hpods, hhoused, h.handled ▸ hpods.objects⟩,
    fun key _ => by rw [h.handled]; rfl,
    fun group l hl => ⟨(htidy group l hl).1, h.deployed group l hl⟩, fun group l hl d a ha => ?_⟩
  have hsame := resolve_congr b.manager.cluster b.manager.range
    ⟨b.operator.pods.processed, none, true, 0⟩ a.record h.ready.pods h.handled.symm
  exact iff_of_true (hsame.symm.trans (h.current group l hl d a ha)) rfl

theorem Kept.observe (h : b.Kept was) {event : WatchEvent Pod} (hevent : event.Brings Pod.Housed) :
    (b.step (.observe event)).2.Kept was := by
  obtain ⟨arrived, hfed, hhoused, hkeyed⟩ := h.pods
  obtain ⟨more, hfed', hhoused'⟩ := hfed.ingest hhoused hevent
  have hpods : (b.step (.observe event)).2.pods = (b.pods.ingest event).1 := rfl
  refine ⟨⟨?_, h.ready.namespaces, h.ready.services⟩, h.one, h.told,
    ⟨arrived ++ more, hfed', hhoused', hkeyed.append more⟩, fun key hkey => ?_, h.ledgers, h.rules⟩
  · exact Store.ready_ingest h.ready.pods event
  · have hqueued : (b.step (.observe event)).2.queued =
        b.queued ++ ((b.pods.ingest event).2 ++ []) := rfl
    rw [hqueued, List.append_nil, List.mem_append, not_or] at hkey
    rw [hpods, Store.get?_ingest_of_not_mem hkey.2]
    exact h.handled key hkey.1

/-- Handling a key without failure finds no change, or hands it to the manager
with success and remembers it. -/
theorem step_handle_cases {now : Nat} {key : ObjectKey}
    (hok : (b.step (.handle now key)).1 = .ok ()) :
    b.operator.pods.check key (b.pods.get? key) = none ∧
        (b.step (.handle now key)).2 =
          ⟨b.operator, b.queued.filter fun k => k != key⟩ ∨
      ∃ change, b.operator.pods.check key (b.pods.get? key) = some change ∧
        (b.manager.onPod now key change).1 = .ok () ∧
        (b.step (.handle now key)).2 =
          ⟨{ b.operator with
              manager := (b.manager.onPod now key change).2
              pods := b.operator.pods.done key change },
            b.queued.filter fun k => k != key⟩ := by
  rcases hcheck : b.operator.pods.check key (b.pods.get? key) with _ | change
  · have htracker : (Watched.pods.tracker b.operator).check key
        ((Watched.pods.store b.operator.manager).get? key) = none := hcheck
    refine .inl ⟨rfl, ?_⟩
    rw [step, Operator.process, htracker]
  · have htracker : (Watched.pods.tracker b.operator).check key
        ((Watched.pods.store b.operator.manager).get? key) = some change := hcheck
    rcases hdone : b.manager.onPod now key change with ⟨e | ⟨⟨⟩⟩, m⟩
    · have hhandle : Watched.pods.handle b.operator.manager now key change = (.error e, m) := hdone
      rw [step, Operator.process, htracker] at hok
      simp only [hhandle] at hok
      cases hok
    · have hhandle : Watched.pods.handle b.operator.manager now key change = (.ok (), m) := hdone
      refine .inr ⟨change, rfl, ?_, ?_⟩
      · rw [hdone]
      · rw [step, Operator.process, htracker]
        simp only [hhandle, hdone]
        rfl

/-- Once a key is processed as it is stored, this holds of all keys that are not
queued still. -/
theorem Kept.handled_of_step (h : b.Kept was) {key : ObjectKey}
    {t : Tracker ObjectKey (Stored Pod)} (hself : t.processed.get? key = b.pods.get? key)
    (hother : ∀ key' ≠ key, t.processed.get? key' = b.operator.pods.processed.get? key') :
    ∀ key' ∉ b.queued.filter fun k => k != key, t.processed.get? key' = b.pods.get? key' := by
  intro key' hkey
  by_cases hne : key' = key
  · rw [hne, hself]
  · rw [hother key' hne]
    exact h.handled key' (by simpa [hne] using hkey)

/-- Remembering a change does not alter the rules of a record that it does not
concern. -/
theorem Kept.resolve_done (h : b.Kept was) {key : ObjectKey} {change : Change (Stored Pod)}
    (hcheck : b.operator.pods.check key (b.pods.get? key) = some change) {r : Record}
    (hconcerns : b.manager.cluster.concerns change r = false) :
    (Operator.processed { b.operator with pods := b.operator.pods.done key change }).resolve r =
      b.operator.processed.resolve r := by
  obtain ⟨arrived, hfed, hhoused, hkeyed⟩ := h.pods
  obtain ⟨hold, hnew⟩ := Tracker.check_eq_some hcheck
  have hkeyed' := Tracker.keyed_done hkeyed fun v hv => hfed.objects key v (hnew.symm.trans hv)
  have hhomes {t : Tracker ObjectKey (Stored Pod)} (ht : Store.Keyed arrived t.processed)
      (key : ObjectKey) (v : Stored Pod) (hv : t.processed.get? key = some v) :
      Pod.Housed v.object := hhoused _ (ht key v hv).1.mem
  exact (Resolver.resolve_eq_of_not_concerns (r := b.operator.processed)
    ⟨rfl, h.ready.namespaces, h.ready.services⟩
    (show (Store.mk (b.operator.pods.done key change).processed none true 0).ready = true from rfl)
    h.one (hhomes hkeyed) (hhomes hkeyed') (fun key' hne => Tracker.get?_done_of_ne _ hne _)
    hold (Tracker.get?_done_self ..).symm hconcerns)

theorem Kept.handle (h : b.Kept was) {now : Nat} {key : ObjectKey}
    (hok : (b.step (.handle now key)).1 = .ok ()) :
    (b.step (.handle now key)).2.Kept fun group r =>
      b.outruns group r (was group r) (.handle now key) := by
  obtain ⟨arrived, hfed, hhoused, hkeyed⟩ := h.pods
  rcases step_handle_cases hok with ⟨hcheck, hstep⟩ | ⟨change, hcheck, hdone, hstep⟩
  · -- nothing is resolved, so the rules are ahead if they were
    have houtruns (group : PodGroup) (r : Record) :
        b.outruns group r (was group r) (.handle now key) = was group r := by
      simp only [outruns, hcheck]
    simp only [houtruns, hstep]
    have hself := Tracker.check_eq_none hkeyed (fun v hv => (hfed.objects key v hv).1) hcheck
    exact ⟨h.ready, h.one, h.told, h.pods, h.handled_of_step hself fun _ _ => rfl, h.ledgers,
      h.rules⟩
  · obtain ⟨-, hnew⟩ := Tracker.check_eq_some hcheck
    have hkeeps := Manager.keeps_onPod (Ledger.Tidy.invariant b.manager.Compiled)
      (fun _ hr => hr) now key change
    have hrenewed := Manager.renewed_onPod (Ledger.Tidy.invariant b.manager.Compiled)
      (fun _ hl => hl.1) (fun _ hr => hr) h.told h.ready h.ledgers hdone
    have hall := hkeeps.all h.ledgers
    have hkeyed' := Tracker.keyed_done hkeyed fun v hv => hfed.objects key v (hnew.symm.trans hv)
    -- the manager has another fleet only, so it resolves as before
    rw [hkeeps.rest] at hstep hrenewed
    generalize (b.manager.onPod now key change).2.fleet = f at hstep hrenewed hall
    have houtruns (group : PodGroup) (r : Record) :
        b.outruns group r (was group r) (.handle now key) =
          if b.manager.renews change group r then (b.step (.handle now key)).2.seesMore r
          else was group r := by
      simp only [outruns, hcheck]
    simp only [houtruns]
    rw [hstep]
    refine ⟨h.ready, h.one, h.told, ⟨arrived, hfed, hhoused, hkeyed'⟩,
      h.handled_of_step ((Tracker.get?_done_self _ _ _).trans hnew) fun _ hne =>
        Tracker.get?_done_of_ne _ hne _, hall, fun group l hl d a ha => ?_⟩
    rcases hrenewed group l hl d a ha with ⟨hrenews, hrules⟩ | ⟨hrenews, l', hl', ha'⟩
    · rw [if_pos hrenews]
      have hstore : (b.manager.resolver.resolve a.record).toOption = some a.rules := by
        rw [hrules]
        rfl
      have hsees {e : Except NotReady (List Rule)} :
          e = .ok a.rules ↔ (some a.rules != e.toOption) = false := by
        rw [bne_eq_false_iff_eq, eq_comm]
        cases e <;> simp [Except.toOption]
      rw [← hstore] at hsees
      exact hsees
    · rw [if_neg hrenews]
      have hconcerns : b.manager.cluster.concerns change a.record = false := by
        simp only [Manager.renews, Bool.or_eq_true, not_or, Bool.not_eq_true] at hrenews
        exact hrenews.2
      rw [← h.rules group l' hl' d a ha', ← h.resolve_done hcheck hconcerns]
      rfl

/-- A run keeps what its turns keep. -/
theorem Kept.run {turns : List Turn} (h : b.Kept was) (hturns : ∀ t ∈ turns, t.Housed)
    (hok : b.succeeds turns = true) :
    (b.run turns).Kept fun group r => ahead group r (was group r) b turns := by
  induction turns generalizing b was with
  | nil => exact h
  | cons t rest ih =>
    obtain ⟨ht, hrest⟩ := List.forall_mem_cons.1 hturns
    rw [succeeds, Bool.and_eq_true] at hok
    have hstep : (b.step t).2.Kept fun group r => b.outruns group r (was group r) t := by
      cases t with
      | observe event => exact h.observe ht
      | handle now key => exact h.handle (Manager.eq_ok_of_toBool hok.1)
    exact ih hstep hrest hok.2

/-! ### When nothing is queued any more -/

variable {turns : List Turn} {group : PodGroup} {l : Ledger} {d : Direction} {a : Applied}

/-- Once all reported keys are handled, the rules of a record that applies are
those that resolving it gives, exactly if they are not ahead: when they were last
resolved, the store gave the same rules as the pods handled by then. -/
theorem current_iff_not_ahead (hb : b.Settled) (hturns : ∀ t ∈ turns, t.Housed)
    (hok : b.succeeds turns = true) (hquiet : (b.run turns).queued = [])
    (hl : (b.run turns).manager.fleet.ledger? group = some l) (ha : a ∈ l.applied.get d) :
    (b.run turns).manager.resolver.resolve a.record = .ok a.rules ↔
      ahead group a.record false b turns = false := by
  have hkept := (kept_start hb).run hturns hok
  rw [← hkept.resolve_eq hquiet]
  exact hkept.rules group l hl d a ha

def prompt (b : Backlog) : List Turn → Bool
  | [] => true
  | .observe event :: rest => (b.step (.observe event)).2.prompt rest
  | .handle now key :: rest =>
    b.queued.all (· == key) && (b.step (.handle now key)).2.prompt rest

/-- A worker that keeps up with the store is never outrun. -/
theorem not_ahead_of_prompt (h : b.Kept was) (hturns : ∀ t ∈ turns, t.Housed)
    (hok : b.succeeds turns = true) (hprompt : b.prompt turns = true) (r : Record) :
    ahead group r false b turns = false := by
  induction turns generalizing b was with
  | nil => rfl
  | cons t rest ih =>
    obtain ⟨ht, hrest⟩ := List.forall_mem_cons.1 hturns
    rw [succeeds, Bool.and_eq_true] at hok
    cases t with
    | observe event => exact ih (h.observe ht) hrest hok.2 hprompt
    | handle now key =>
      rw [prompt, Bool.and_eq_true] at hprompt
      have hkept := h.handle (Manager.eq_ok_of_toBool hok.1)
      have hqueued : (b.step (.handle now key)).2.queued = [] := by
        have hfilter : (b.step (.handle now key)).2.queued =
            b.queued.filter fun k => k != key := rfl
        rw [hfilter, List.filter_eq_nil_iff]
        intro k hk
        simpa using List.all_eq_true.1 hprompt.1 k hk
      -- with nothing queued the worker has processed what the store holds
      have hsees : (b.step (.handle now key)).2.seesMore r = false := by
        rw [seesMore, hkept.resolve_eq hqueued, bne_self_eq_false]
      rw [ahead, outruns]
      split
      · exact ih hkept hrest hok.2 hprompt.2
      · rw [hsees, ite_self]
        exact ih hkept hrest hok.2 hprompt.2

theorem current_of_prompt (hb : b.Settled) (hturns : ∀ t ∈ turns, t.Housed)
    (hok : b.succeeds turns = true) (hprompt : b.prompt turns = true)
    (hquiet : (b.run turns).queued = []) : (b.run turns).Current := by
  intro group l hl d a ha
  have hkept := (kept_start hb).run hturns hok
  rw [← hkept.resolve_eq hquiet, hkept.rules group l hl d a ha]
  exact not_ahead_of_prompt (kept_start hb) hturns hok hprompt a.record

def space : Kube.Object Namespace := ⟨⟨some "n", none, ∅, none, none, false⟩, ⟨"n", ∅⟩⟩

def peersPolicy : NetworkPolicy :=
  ⟨⟨some "p", some "n", ∅, none, none, false⟩,
    ⟨⟨∅, false⟩, [], [⟨[⟨none, some ⟨∅, false⟩, none⟩], []⟩], []⟩⟩

def unused : Backlog where
  operator := { Operator.start "node" [] none Backend.empty with
    manager := {
      node := "node"
      ignored := []
      range := none
      cluster := ⟨.ofListing [], .ofListing [space], .ofListing []⟩
      k8sPolicies := .ofListing [peersPolicy]
      pcnPolicies := default
      fleet := .empty Backend.empty } }
  queued := []

def podNamed (name ip : String) : Kube.Object Pod :=
  ⟨⟨some name, some "n", ∅, none, none, false⟩,
    ⟨name, "n", ∅, some ip, some "node", true, false, false⟩⟩

theorem unused_settled : unused.Settled where
  reached := .start (m := { unused.manager with fleet := default }) _ fun _ _ _ => trivial
  ready := ⟨rfl, rfl, rfl⟩
  namespaces := Store.fedBy_ofListing [space] (List.forall_mem_singleton.2 ⟨rfl, rfl⟩)
  pods := Store.fedBy_ofListing [] (List.forall_mem_nil _)
  k8sPolicies :=
    (Store.fedBy_ofListing [peersPolicy] (P := fun _ => True) fun _ _ => trivial).imp fun _ h => h.1
  pcnPolicies := ⟨_, Store.fedBy_empty⟩
  handled := rfl
  deployed := nofun
  current := nofun

/-- While the first pod is handled the second one is seen already; then the
second one is handled too. -/
theorem current_iff_not_ahead_of_caught_up :
    let turns : List Turn := [.observe (.apply (podNamed "a" "10.0.0.1")),
      .observe (.apply (podNamed "b" "10.0.0.2")), .handle 0 ⟨"n", "a"⟩, .handle 0 ⟨"n", "b"⟩]
    unused.succeeds turns = true ∧ (unused.run turns).queued = [] ∧
      ∃ l, (unused.run turns).manager.fleet.ledger? ⟨"n", ∅⟩ = some l ∧
        ∃ a ∈ l.applied.get .incoming, ahead ⟨"n", ∅⟩ a.record false unused turns = false ∧
          (unused.run turns).manager.resolver.resolve a.record = .ok a.rules := by
  intro turns
  obtain ⟨hok, hquiet, hahead⟩ : unused.succeeds turns = true ∧ (unused.run turns).queued = [] ∧
      ((unused.run turns).manager.fleet.ledger? ⟨"n", ∅⟩).any (fun l =>
        (l.applied.get .incoming).any fun a =>
          !ahead ⟨"n", ∅⟩ a.record false unused turns) = true := by decide +kernel
  obtain ⟨l, hl, hahead⟩ := (Option.any_eq_true _ _).1 hahead
  obtain ⟨a, ha, hahead⟩ := List.any_eq_true.1 hahead
  rw [Bool.not_eq_true'] at hahead
  refine ⟨hok, hquiet, l, hl, a, ha, hahead, ?_⟩
  exact (current_iff_not_ahead unused_settled (by simp [turns, Turn.Housed, WatchEvent.Brings,
    Pod.Housed, podNamed]) hok hquiet hl ha).2 hahead

/-- A pod is seen while another one is handled, and is gone before it is handled
itself. The rules for its address stay. -/
theorem gone_pod_stays :
    ¬∀ (b : Backlog) (turns : List Turn), b.Settled → (∀ t ∈ turns, t.Housed) →
      b.succeeds turns = true → (b.run turns).queued = [] → (b.run turns).Current := by
  intro h
  let turns : List Turn := [.observe (.apply (podNamed "a" "10.0.0.1")),
    .observe (.apply (podNamed "b" "10.0.0.2")), .handle 0 ⟨"n", "a"⟩,
    .observe (.delete (podNamed "b" "10.0.0.2")), .handle 0 ⟨"n", "b"⟩]
  obtain ⟨hok, hquiet, hstale⟩ : unused.succeeds turns = true ∧ (unused.run turns).queued = [] ∧
      ((unused.run turns).manager.fleet.ledger? ⟨"n", ∅⟩).any (fun l =>
        (l.applied.get .incoming).any fun a =>
          ((unused.run turns).manager.resolver.resolve a.record).toOption != some a.rules) =
        true := by decide +kernel
  obtain ⟨l, hl, hstale⟩ := (Option.any_eq_true _ _).1 hstale
  obtain ⟨a, ha, hstale⟩ := List.any_eq_true.1 hstale
  have hcurrent := h unused turns unused_settled (by simp [turns, Turn.Housed, WatchEvent.Brings,
    Pod.Housed, podNamed]) hok hquiet _ l hl _ a ha
  rw [hcurrent] at hstale
  exact absurd hstale (by simp [Except.toOption])

end Backlog

end PodFirewall
