import PodFirewall.Cluster.Pod
import PodFirewall.Proofs.Controller.Removal

/-!
How often the handler is called for a key. The failures are counted for a key,
not for a change, and a success or a change that is given up sets the count back
while retries asked for before may still be pending. Still, each time the watch
adds a key it buys no more than one call and the retries after it. What carries
the bound are tickets: a key that is added has one until it is handled, a
failure with retries left passes it on to the pending retry, and only then is
the failure counted. A round of failures that ends uses its ticket up.
-/

namespace PodFirewall

variable {α : Type}

/-! ### What is counted -/

/-- A controller with the keys that its handler was called for and those that
the watch added to its queue, the latest ones first. -/
structure Tally (α : Type) where
  controller : Controller α
  calls : List ObjectKey
  announced : List ObjectKey

namespace Controller

def called? (c : Controller α) : ControllerStep α → Option ObjectKey
  | .read =>
    match c.phase with
    | .taken key => (c.tracker.check key (c.store.get? key)).map fun _ => key
    | _ => none
  | _ => none

/-- The key that the watch adds in a step, whether or not the queue takes it
in. -/
def announced? (c : Controller α) : ControllerStep α → Option ObjectKey
  | .announce => c.reported.head?
  | _ => none

end Controller

namespace Tally

def start (backoff : Backoff) (maxRetries : Nat) (store : Store α) : Tally α :=
  ⟨{ Controller.start backoff maxRetries with store }, [], []⟩

def step (t : Tally α) (s : ControllerStep α) : Tally α where
  controller := t.controller.step s
  calls := (t.controller.called? s).toList ++ t.calls
  announced := (t.controller.announced? s).toList ++ t.announced

def run (t : Tally α) (steps : List (ControllerStep α)) : Tally α := steps.foldl step t

theorem run_append (t : Tally α) (steps rest : List (ControllerStep α)) :
    t.run (steps ++ rest) = (t.run steps).run rest := List.foldl_append

end Tally

/-! ### Tickets -/

namespace WorkerPhase

def busy (key : ObjectKey) : WorkerPhase α → Nat
  | handling k _ => if k = key then 1 else 0
  | _ => 0

def ticket (key : ObjectKey) : WorkerPhase α → Nat
  | taken k | handling k _ => if k = key then 1 else 0
  | _ => 0

theorem busy_le_ticket (phase : WorkerPhase α) (key : ObjectKey) :
    phase.busy key ≤ phase.ticket key := by
  cases phase <;> simp [busy, ticket]

theorem busy_le_one (phase : WorkerPhase α) (key : ObjectKey) : phase.busy key ≤ 1 := by
  unfold busy
  split
  · split <;> decide
  · exact Nat.zero_le _

end WorkerPhase

/-- The tickets of a key: one while it is to be processed, one for each pending
retry of it, and one while the worker has it and the handler has not ended. -/
def Controller.tickets (c : Controller α) (key : ObjectKey) : Nat :=
  (c.work.queue.dirty.contains key).toNat + c.work.pending.countP (·.key = key) +
    c.phase.ticket key

/-- A key that is added gets a ticket, unless it has one. -/
theorem Queue.toNat_contains_dirty_add_le (q : Queue ObjectKey) (key key' : ObjectKey) :
    ((q.add key').dirty.contains key).toNat ≤
      (q.dirty.contains key).toNat + if key' = key then 1 else 0 := by
  rcases hclosed : q.closed with _ | _
  · split
    · exact Nat.le_trans (Bool.toNat_le _) (Nat.le_add_left _ _)
    · rename_i hkey
      have hsame : (q.add key').dirty.contains key = q.dirty.contains key := by
        rw [Bool.eq_iff_iff, Queue.contains_dirty_add hclosed]
        exact or_iff_right (Ne.symm hkey)
      exact Nat.le_of_eq (by rw [hsame, Nat.add_zero])
  · rw [Queue.add_of_closed hclosed]
    exact Nat.le_add_right _ _

/-! ### What the steps of a controller keep -/

structure Controller.Orderly (c : Controller α) : Prop where
  queue : c.work.queue.Orderly
  held : ∀ key, c.phase.key? = some key → c.work.queue.processing.contains key = true

namespace Controller

variable {c : Controller α} {key : ObjectKey}

theorem orderly_start (backoff : Backoff) (maxRetries : Nat) (store : Store α) :
    (Tally.start backoff maxRetries store).controller.Orderly :=
  ⟨Queue.orderly_empty, nofun⟩

theorem Orderly.take (h : c.Orderly) : c.take.Orderly := by
  have hget := h.queue.get
  rcases hqueued : c.work.queue.queued with _ | ⟨next, rest⟩
  · rw [Controller.take, Queue.get_of_nil hqueued]
    rcases c.work.queue.closed with _ | _
    · exact h
    · exact ⟨h.queue, fun key hkey => absurd hkey.symm (Option.some_ne_none key)⟩
  · rw [Queue.get_of_cons hqueued] at hget
    rw [Controller.take, Queue.get_of_cons hqueued]
    refine ⟨hget, fun key hkey => ?_⟩
    exact OrdSet.contains_add_iff.2 (.inl (Option.some.inj hkey).symm)

theorem Orderly.added (h : c.Orderly) {c' : Controller α}
    (hqueue : c'.work.queue = c.work.queue.add key) (hphase : c'.phase = c.phase) : c'.Orderly where
  queue := hqueue ▸ h.queue.add key
  held key' hkey' := by
    rw [hqueue, Queue.processing_add]
    exact h.held key' (hphase ▸ hkey')

theorem Orderly.step (h : c.Orderly) (s : ControllerStep α) : (c.step s).Orderly := by
  cases s with
  | observe event => exact ⟨h.queue, h.held⟩
  | announce =>
    simp only [Controller.step]
    split
    · exact h.added rfl rfl
    · exact h
  | take =>
    simp only [Controller.step]
    split
    · exact h.take
    · exact h
  | read =>
    simp only [Controller.step]
    split
    · rename_i k hphase
      have hheld : c.work.queue.processing.contains k = true := h.held k (by rw [hphase]; rfl)
      unfold look
      split <;> exact ⟨h.queue, fun key hkey => Option.some.inj hkey ▸ hheld⟩
    · exact h
  | settle succeeded =>
    simp only [Controller.step]
    split
    · rename_i k change hphase
      obtain ⟨failures, more, hsettle⟩ := Diary.settle_eq c k change succeeded
      rw [hsettle]
      refine ⟨⟨h.queue.nodup, h.queue.mem_queued_iff⟩, fun key hkey => ?_⟩
      exact h.held key (by rw [hphase]; exact hkey)
    · exact h
  | leave =>
    simp only [Controller.step]
    split
    · rename_i k hphase
      exact ⟨h.queue.done (h.held k (by rw [hphase]; rfl)),
        fun key hkey => absurd hkey.symm (Option.some_ne_none key)⟩
    · exact h
  | fire r =>
    simp only [Controller.step]
    split
    · exact h.added rfl rfl
    · exact h
  | elapse span => exact ⟨h.queue, h.held⟩
  | close => exact ⟨⟨h.queue.nodup, h.queue.mem_queued_iff⟩, h.held⟩

/-- When the handler has ended, the failures of its key are forgotten, or the key
has retries left and is to be tried again. -/
theorem settle_cases (c : Controller α) (k : ObjectKey) (change : Change (Stored α))
    (succeeded : Bool) :
    (∃ tracker, c.settle k change succeeded =
      { c with tracker, phase := .leaving k }.onQueue (·.forget k)) ∨
    c.work.queue.failuresOf k < c.maxRetries ∧ c.settle k change succeeded =
      { c with work := c.work.retry c.backoff c.now k, phase := .leaving k } := by
  unfold settle
  dsimp only
  split
  · exact .inl ⟨_, rfl⟩
  · split
    · exact .inr ⟨‹_›, rfl⟩
    · exact .inl ⟨_, rfl⟩

/-- No step changes how often a change is tried again, and only the watch changes
what is reported. -/
theorem frame_step (c : Controller α) (s : ControllerStep α) :
    (c.step s).maxRetries = c.maxRetries ∧
      ((∀ event, s ≠ .observe event) → s ≠ .announce → (c.step s).reported = c.reported) := by
  cases s with
  | observe event => exact ⟨rfl, fun hs => absurd rfl (hs event)⟩
  | announce =>
    simp only [Controller.step]
    split <;> exact ⟨rfl, fun _ hs => absurd rfl hs⟩
  | take =>
    simp only [Controller.step]
    split
    · unfold take
      split <;> exact ⟨rfl, fun _ _ => rfl⟩
    · exact ⟨rfl, fun _ _ => rfl⟩
  | read =>
    simp only [Controller.step]
    split
    · unfold look
      split <;> exact ⟨rfl, fun _ _ => rfl⟩
    · exact ⟨rfl, fun _ _ => rfl⟩
  | settle succeeded =>
    simp only [Controller.step]
    split
    · rename_i k change _
      obtain ⟨failures, more, hsettle⟩ := Diary.settle_eq c k change succeeded
      rw [hsettle]
      exact ⟨rfl, fun _ _ => rfl⟩
    · exact ⟨rfl, fun _ _ => rfl⟩
  | leave =>
    simp only [Controller.step]
    split <;> exact ⟨rfl, fun _ _ => rfl⟩
  | fire r =>
    simp only [Controller.step]
    split <;> exact ⟨rfl, fun _ _ => rfl⟩
  | elapse span => exact ⟨rfl, fun _ _ => rfl⟩
  | close => exact ⟨rfl, fun _ _ => rfl⟩

end Controller

/-! ### What the steps of a tally keep -/

namespace Tally

variable {t : Tally α} {key : ObjectKey} {rounds : Nat}

/-- Whether the calls for a key are paid for, where some rounds of failures have
ended in a success or in the change being given up. -/
structure Paid (t : Tally α) (key : ObjectKey) (rounds : Nat) : Prop where
  tickets : rounds + t.controller.tickets key ≤ t.announced.count key
  begun : t.controller.work.queue.failuresOf key ≠ 0 → rounds < t.announced.count key
  failures : t.controller.work.queue.failuresOf key ≤ t.controller.maxRetries
  calls : t.calls.count key ≤ (t.controller.maxRetries + 1) * rounds +
    t.controller.work.queue.failuresOf key + t.controller.phase.busy key

theorem paid_start (backoff : Backoff) (maxRetries : Nat) (store : Store α) (key : ObjectKey) :
    (start backoff maxRetries store).Paid key 0 :=
  ⟨Nat.le_refl _, fun h => absurd rfl h, Nat.zero_le _, Nat.zero_le _⟩

/-- A round that is not over costs no more calls than one that is. -/
theorem Paid.calls_le (h : t.Paid key rounds) :
    t.calls.count key ≤ (t.controller.maxRetries + 1) * t.announced.count key := by
  have hbusy := t.controller.phase.busy_le_ticket key
  have htickets := h.tickets
  have hcalls := h.calls
  have hfailures := h.failures
  unfold Controller.tickets at htickets
  by_cases hrest : t.controller.work.queue.failuresOf key = 0 ∧ t.controller.phase.busy key = 0
  · rw [hrest.1, hrest.2] at hcalls
    have hmul := Nat.mul_le_mul_left (t.controller.maxRetries + 1)
      (show rounds ≤ t.announced.count key by omega)
    omega
  · have hlt : rounds < t.announced.count key := by
      by_cases hzero : t.controller.work.queue.failuresOf key = 0
      · omega
      · exact h.begun hzero
    have hone := t.controller.phase.busy_le_one key
    have hmul := Nat.mul_le_mul_left (t.controller.maxRetries + 1) (show rounds + 1 ≤ _ from hlt)
    rw [Nat.mul_add, Nat.mul_one] at hmul
    omega

/-- A step that ends no call keeps the calls paid for, if each ticket that it
gives is bought and each call that begins keeps the handler busy. -/
theorem Paid.keep (h : t.Paid key rounds) {t' : Tally α}
    (hlimit : t'.controller.maxRetries = t.controller.maxRetries)
    (hfailures : t'.controller.work.queue.failuresOf key =
      t.controller.work.queue.failuresOf key)
    (htickets : t'.controller.tickets key + t.announced.count key ≤
      t.controller.tickets key + t'.announced.count key)
    (hannounced : t.announced.count key ≤ t'.announced.count key)
    (hcalls : t'.calls.count key + t.controller.phase.busy key ≤
      t.calls.count key + t'.controller.phase.busy key) :
    t'.Paid key rounds where
  tickets := by have := h.tickets; omega
  begun hne := Nat.lt_of_lt_of_le (h.begun (hfailures ▸ hne)) hannounced
  failures := by rw [hfailures, hlimit]; exact h.failures
  calls := by rw [hfailures, hlimit]; have := h.calls; omega

theorem Paid.announce (h : t.Paid key rounds) : (t.step .announce).Paid key rounds := by
  rcases hreported : t.controller.reported with _ | ⟨first, rest⟩
  · simpa [step, Controller.step, Controller.called?, Controller.announced?, hreported] using h
  · have hstep : t.step .announce = ⟨{ t.controller with reported := rest }.onQueue (·.add first),
        t.calls, first :: t.announced⟩ := by
      simp [step, Controller.step, Controller.called?, Controller.announced?, hreported]
    have hdirty := t.controller.work.queue.toNat_contains_dirty_add_le key first
    rw [hstep]
    refine h.keep rfl (Queue.failuresOf_add _ _ _) ?_ List.count_le_count_cons (Nat.le_refl _)
    simp only [Controller.tickets, Controller.onQueue, List.count_cons, beq_iff_eq]
    omega

theorem Paid.fire (h : t.Paid key rounds) (r : Retry ObjectKey) :
    (t.step (.fire r)).Paid key rounds := by
  by_cases hpending : r ∈ t.controller.work.pending
  · have hstep : t.step (.fire r) = ⟨{ t.controller with work := t.controller.work.fire r },
        t.calls, t.announced⟩ := by
      simp [step, Controller.step, Controller.called?, Controller.announced?, hpending]
    have hdirty := t.controller.work.queue.toNat_contains_dirty_add_le key r.key
    have herase := (List.perm_cons_erase hpending).countP_eq fun r => decide (r.key = key)
    rw [List.countP_cons] at herase
    rw [hstep]
    refine h.keep rfl (Queue.failuresOf_add _ _ _) ?_ (Nat.le_refl _) (Nat.le_refl _)
    -- the ticket of the retry goes to the queue
    simp only [Controller.tickets, RetryQueue.fire, herase, decide_eq_true_eq]
    omega
  · simpa [step, Controller.step, Controller.called?, Controller.announced?, hpending] using h

theorem Paid.take (h : t.Paid key rounds) (horderly : t.controller.Orderly) :
    (t.step .take).Paid key rounds := by
  rcases hphase : t.controller.phase with _ | _ | _ | _ | _
  case idle =>
    have hstep : t.step .take = ⟨t.controller.take, t.calls, t.announced⟩ := by
      simp [step, Controller.step, Controller.called?, Controller.announced?, hphase]
    rw [hstep]
    rcases hqueued : t.controller.work.queue.queued with _ | ⟨next, rest⟩
    · rw [Controller.take, Queue.get_of_nil hqueued]
      rcases t.controller.work.queue.closed with _ | _
      · exact h
      · refine h.keep rfl rfl ?_ (Nat.le_refl _) (by simp [hphase, WorkerPhase.busy])
        simp [Controller.tickets, hphase, WorkerPhase.ticket]
    · have hdirty : t.controller.work.queue.dirty.contains next = true :=
        ((horderly.queue.mem_queued_iff next).1 (by simp [hqueued])).1
      rw [Controller.take, Queue.get_of_cons hqueued]
      refine h.keep rfl rfl ?_ (Nat.le_refl _) (by simp [hphase, WorkerPhase.busy])
      simp only [Controller.tickets, hphase, WorkerPhase.ticket]
      -- the ticket of the queue goes to the worker
      by_cases hkey : next = key
      · subst hkey
        have hgone : (t.controller.work.queue.dirty.erase next).contains next = false := by
          simp [Bool.eq_false_iff, OrdMap.contains_erase_iff]
        simp only [hgone, hdirty, Bool.toNat_false, Bool.toNat_true, if_true]
        omega
      · have hsame : (t.controller.work.queue.dirty.erase next).contains key =
            t.controller.work.queue.dirty.contains key := by
          rw [Bool.eq_iff_iff, OrdMap.contains_erase_iff]
          exact and_iff_right (Ne.symm hkey)
        simp only [hsame, hkey, if_false]
        omega
  all_goals
    simpa [step, Controller.step, Controller.called?, Controller.announced?, hphase] using h

theorem Paid.read (h : t.Paid key rounds) : (t.step .read).Paid key rounds := by
  rcases hphase : t.controller.phase with _ | k | _ | _ | _
  case taken =>
    rcases hcheck : t.controller.tracker.check k (t.controller.store.get? k) with _ | change
    · have hstep : t.step .read = ⟨{ t.controller with phase := .leaving k }, t.calls,
          t.announced⟩ := by
        simp [step, Controller.step, Controller.called?, Controller.announced?, Controller.look,
          hphase, hcheck]
      rw [hstep]
      refine h.keep rfl rfl ?_ (Nat.le_refl _) (by simp [hphase, WorkerPhase.busy])
      simp only [Controller.tickets, hphase, WorkerPhase.ticket]
      omega
    · have hstep : t.step .read = ⟨{ t.controller with phase := .handling k change }, k :: t.calls,
          t.announced⟩ := by
        simp [step, Controller.step, Controller.called?, Controller.announced?, Controller.look,
          hphase, hcheck]
      rw [hstep]
      refine h.keep rfl rfl ?_ (Nat.le_refl _) ?_
      · simp [Controller.tickets, hphase, WorkerPhase.ticket]
      · simp [List.count_cons, hphase, WorkerPhase.busy]
  all_goals
    simpa [step, Controller.step, Controller.called?, Controller.announced?, hphase] using h

theorem Paid.leave (h : t.Paid key rounds) : (t.step .leave).Paid key rounds := by
  rcases hphase : t.controller.phase with _ | _ | _ | k | _
  case leaving =>
    have hstep : t.step .leave = ⟨{ t.controller with phase := .idle }.onQueue (·.done k),
        t.calls, t.announced⟩ := by
      simp [step, Controller.step, Controller.called?, Controller.announced?, hphase]
    rw [hstep, Controller.onQueue, Queue.done_eq]
    refine h.keep rfl rfl ?_ (Nat.le_refl _) (by simp [hphase, WorkerPhase.busy])
    simp [Controller.tickets, hphase, WorkerPhase.ticket]
  all_goals
    simpa [step, Controller.step, Controller.called?, Controller.announced?, hphase] using h

/-- A call that ends is counted as a failure, or ends the round. -/
theorem Paid.settle (h : t.Paid key rounds) (succeeded : Bool) :
    ∃ rounds', (t.step (.settle succeeded)).Paid key rounds' := by
  rcases hphase : t.controller.phase with _ | _ | ⟨k, change⟩ | _ | _
  case handling =>
    have hstep : t.step (.settle succeeded) =
        ⟨t.controller.settle k change succeeded, t.calls, t.announced⟩ := by
      simp [step, Controller.step, Controller.called?, Controller.announced?, hphase]
    have hlimit := h.failures
    have htickets := h.tickets
    have hcalls := h.calls
    simp only [Controller.tickets, hphase, WorkerPhase.ticket] at htickets
    rw [hphase, WorkerPhase.busy] at hcalls
    rw [hstep]
    rcases Controller.settle_cases t.controller k change succeeded with
      ⟨tracker, hsettle⟩ | ⟨hlt, hsettle⟩ <;> rw [hsettle]
    · -- the call succeeded or the change is given up, so a new round can begin
      have hfailures := Queue.failuresOf_forget t.controller.work.queue key k
      by_cases hkey : k = key
      · subst hkey
        rw [if_pos rfl] at hfailures htickets hcalls
        refine ⟨rounds + 1, ?_, fun hne => absurd hfailures hne, ?_, ?_⟩
        · simp only [Controller.tickets, Controller.onQueue, Queue.forget, WorkerPhase.ticket]
          omega
        · exact Nat.le_trans (Nat.le_of_eq hfailures) (Nat.zero_le _)
        · simp only [Controller.onQueue, hfailures, WorkerPhase.busy, Nat.mul_add]
          omega
      · rw [if_neg (Ne.symm hkey)] at hfailures
        refine ⟨rounds, h.keep rfl hfailures ?_ (Nat.le_refl _) ?_⟩
        · simp [Controller.tickets, Controller.onQueue, Queue.forget, hphase, WorkerPhase.ticket]
        · simp [Controller.onQueue, hphase, hkey, WorkerPhase.busy]
    · have hfailures := Queue.failuresOf_fail t.controller.work.queue key k
      by_cases hkey : k = key
      · subst hkey
        rw [if_pos rfl] at hfailures htickets hcalls
        refine ⟨rounds, ?_, fun _ => ?_, ?_, ?_⟩
        · -- the ticket of the worker goes to the retry
          simp only [Controller.tickets, RetryQueue.retry, Queue.fail, WorkerPhase.ticket,
            List.countP_append, List.countP_singleton, decide_true, if_true]
          omega
        · show rounds < t.announced.count k
          omega
        · exact Nat.le_trans (Nat.le_of_eq hfailures) hlt
        · simp only [RetryQueue.retry, hfailures, WorkerPhase.busy]
          omega
      · rw [if_neg (Ne.symm hkey)] at hfailures
        refine ⟨rounds, h.keep rfl hfailures ?_ (Nat.le_refl _) ?_⟩
        · simp [Controller.tickets, RetryQueue.retry, Queue.fail, hphase, hkey, WorkerPhase.ticket]
        · simp [hphase, hkey, WorkerPhase.busy]
  all_goals
    exact ⟨rounds, by
      simpa [step, Controller.step, Controller.called?, Controller.announced?, hphase] using h⟩

theorem Paid.step (h : t.Paid key rounds) (horderly : t.controller.Orderly)
    (s : ControllerStep α) : ∃ rounds', (t.step s).Paid key rounds' := by
  cases s with
  | observe event => exact ⟨rounds, h.tickets, h.begun, h.failures, h.calls⟩
  | announce => exact ⟨rounds, h.announce⟩
  | take => exact ⟨rounds, h.take horderly⟩
  | read => exact ⟨rounds, h.read⟩
  | settle succeeded => exact h.settle succeeded
  | leave => exact ⟨rounds, h.leave⟩
  | fire r => exact ⟨rounds, h.fire r⟩
  | elapse span => exact ⟨rounds, h.tickets, h.begun, h.failures, h.calls⟩
  | close => exact ⟨rounds, h.tickets, h.begun, h.failures, h.calls⟩

theorem Paid.run (h : t.Paid key rounds) (horderly : t.controller.Orderly)
    (steps : List (ControllerStep α)) : ∃ rounds', (t.run steps).Paid key rounds' := by
  induction steps generalizing t rounds with
  | nil => exact ⟨rounds, h⟩
  | cons s rest ih =>
    obtain ⟨rounds', hnext⟩ := h.step horderly s
    exact ih hnext (horderly.step s)

theorem maxRetries_run (t : Tally α) (steps : List (ControllerStep α)) :
    (t.run steps).controller.maxRetries = t.controller.maxRetries := by
  induction steps generalizing t with
  | nil => rfl
  | cons s rest ih => exact (ih (t.step s)).trans (Controller.frame_step _ s).1

/-- Without events, the watch adds what is reported already, and nothing else. -/
theorem announced_step (t : Tally α) {s : ControllerStep α} (hs : ∀ event, s ≠ .observe event)
    (key : ObjectKey) :
    (t.step s).announced.count key + (t.step s).controller.reported.count key =
      t.announced.count key + t.controller.reported.count key := by
  by_cases hannounce : s = .announce
  · subst hannounce
    rcases hreported : t.controller.reported with _ | ⟨first, rest⟩
    · simp [step, Controller.step, Controller.announced?, hreported]
    · simp only [step, Controller.step, Controller.announced?, Controller.onQueue, hreported,
        List.head?_cons, Option.toList_some, List.singleton_append, List.count_cons]
      omega
  · have hnone : t.controller.announced? s = none := by
      cases s <;> first | rfl | exact absurd rfl hannounce
    rw [step, hnone, (Controller.frame_step _ s).2 hs hannounce]
    rfl

theorem announced_run (t : Tally α) {steps : List (ControllerStep α)}
    (hsteps : ∀ event, .observe event ∉ steps) (key : ObjectKey) :
    (t.run steps).announced.count key + (t.run steps).controller.reported.count key =
      t.announced.count key + t.controller.reported.count key := by
  induction steps generalizing t with
  | nil => rfl
  | cons s rest ih =>
    have hrest (event : WatchEvent α) : .observe event ∉ rest :=
      fun hmem => hsteps event (List.mem_cons_of_mem _ hmem)
    have hs (event : WatchEvent α) : s ≠ .observe event :=
      fun heq => hsteps event (heq ▸ List.mem_cons_self)
    exact (ih (t.step s) hrest).trans (t.announced_step hs key)

/-! ### The bound -/

/-- After any steps, the handler was called for a key at most once, and once for
each retry, each time the watch added the key. Once no event comes any more,
there is a bound on all calls to come, whatever the handler does. -/
theorem calls_le_of_announced (backoff : Backoff) (maxRetries : Nat) (store : Store α)
    (steps : List (ControllerStep α)) (key : ObjectKey) :
    let t := (start backoff maxRetries store).run steps
    t.calls.count key ≤ (maxRetries + 1) * t.announced.count key ∧
      ∀ rest, (∀ event, .observe event ∉ rest) → (t.run rest).calls.count key ≤
        (maxRetries + 1) * (t.announced.count key + t.controller.reported.count key) := by
  intro t
  have hbound (steps : List (ControllerStep α)) :
      ((start backoff maxRetries store).run steps).calls.count key ≤
        (maxRetries + 1) * ((start backoff maxRetries store).run steps).announced.count key := by
    obtain ⟨rounds, hpaid⟩ := (paid_start backoff maxRetries store key).run
      (Controller.orderly_start backoff maxRetries store) steps
    have hcalls := hpaid.calls_le
    rwa [maxRetries_run] at hcalls
  refine ⟨hbound steps, fun rest hrest => ?_⟩
  have hannounced := t.announced_run hrest key
  calc (t.run rest).calls.count key
      ≤ (maxRetries + 1) * (t.run rest).announced.count key := by
        simpa only [t, run_append] using hbound (steps ++ rest)
    _ ≤ (maxRetries + 1) * (t.announced.count key + t.controller.reported.count key) :=
        Nat.mul_le_mul_left _ (by omega)

/-- A namespace is seen, and each call for it fails. With two retries there are
three calls, and no more. -/
theorem calls_le_of_announced_of_failing :
    let attempt : List (ControllerStep Namespace) := [.take, .read, .settle false, .leave]
    let rest := .announce :: attempt ++ [.elapse 100, .fire ⟨100, Diary.spaceKey⟩] ++ attempt ++
      [.elapse 200, .fire ⟨300, Diary.spaceKey⟩] ++ attempt
    let t : Tally Namespace := (start ⟨100, 1000⟩ 2 .empty).run ((Diary.visit false).take 1)
    (t.run rest).calls.count Diary.spaceKey = 3 ∧
      ∀ more, (∀ event, .observe event ∉ more) →
        (t.run (rest ++ more)).calls.count Diary.spaceKey ≤ 3 := by
  intro attempt rest t
  refine ⟨by decide +kernel, fun more hmore => ?_⟩
  have hquiet (event : WatchEvent Namespace) : .observe event ∉ rest ++ more := by
    simp [rest, attempt, hmore]
  have honce : t.announced.count Diary.spaceKey + t.controller.reported.count Diary.spaceKey = 1 := by
    decide +kernel
  have hcalls := (calls_le_of_announced ⟨100, 1000⟩ 2 .empty ((Diary.visit false).take 1)
    Diary.spaceKey).2 (rest ++ more) hquiet
  change _ ≤ 3 * (t.announced.count _ + t.controller.reported.count _) at hcalls
  rwa [honce] at hcalls

end Tally

end PodFirewall
