import PodFirewall.Proofs.Queue.Keys
import PodFirewall.Queue.Retry

/-!
Any number of workers at one queue. The keys that can be handed out are exactly
those that are to be processed and that no worker has, so no two workers ever
have the same key. A key that was taken in is to be processed until a worker
gets it, even if the queue is closed in the meantime.
-/

namespace PodFirewall

structure Workshop (κ : Type) [Ord κ] where
  backoff : Backoff
  work : RetryQueue κ
  /-- Each key that a worker got and has not returned, with the worker. -/
  held : List (Nat × κ)

inductive WorkshopStep (κ : Type) where
  | add (key : κ)
  | get (worker : Nat)
  | done (worker : Nat) (key : κ)
  | retry (now : Nat) (key : κ)
  | fire (r : Retry κ)
  | forget (key : κ)
  | close

namespace Workshop

variable {κ : Type} [Ord κ]

def start (backoff : Backoff) : Workshop κ := ⟨backoff, .empty, []⟩

def onQueue (w : Workshop κ) (f : Queue κ → Queue κ) : Workshop κ :=
  { w with work := { w.work with queue := f w.work.queue } }

/-- Whether a key is to be processed. -/
def Owes (w : Workshop κ) (key : κ) : Prop := w.work.queue.dirty.contains key = true

/-- Whether a step adds a key that the queue does not refuse. -/
def Accepts (w : Workshop κ) (s : WorkshopStep κ) (key : κ) : Prop :=
  w.work.queue.closed = false ∧
    (s = .add key ∨ ∃ r ∈ w.work.pending, r.key = key ∧ s = .fire r)

variable [Std.TransOrd κ]

def offer (w : Workshop κ) : Offer κ := w.work.queue.get.1

def get (w : Workshop κ) (worker : Nat) : Workshop κ :=
  { w with
      work := { w.work with queue := w.work.queue.get.2 }
      held :=
        match w.offer with
        | .key key => (worker, key) :: w.held
        | _ => w.held }

variable [DecidableEq κ]

/-- The workshop after a step. A key is only taken back from the worker that has
it. -/
def step (w : Workshop κ) : WorkshopStep κ → Workshop κ
  | .add key => w.onQueue (·.add key)
  | .get worker => w.get worker
  | .done worker key =>
    if (worker, key) ∈ w.held then
      { w.onQueue (·.done key) with held := w.held.erase (worker, key) }
    else w
  | .retry now key => { w with work := w.work.retry w.backoff now key }
  | .fire r => if r ∈ w.work.pending then { w with work := w.work.fire r } else w
  | .forget key => w.onQueue (·.forget key)
  | .close => w.onQueue Queue.close

def run (w : Workshop κ) (steps : List (WorkshopStep κ)) : Workshop κ := steps.foldl step w

end Workshop

/-! ### What the steps keep -/

namespace Workshop

variable {κ : Type} [Ord κ] {w : Workshop κ} {key : κ}

/-- Whether the workers have the keys that the queue takes to be processed, each
of them once. -/
structure Orderly (w : Workshop κ) : Prop where
  queue : w.work.queue.Orderly
  held_nodup : (w.held.map (·.2)).Nodup
  processing_iff : ∀ key,
    w.work.queue.processing.contains key = true ↔ key ∈ w.held.map (·.2)

theorem orderly_start (backoff : Backoff) : (start backoff : Workshop κ).Orderly :=
  ⟨Queue.orderly_empty, .nil, fun _ => ⟨nofun, nofun⟩⟩

/-- A step that hands out and takes back nothing keeps the workshop orderly if
it does so with the queue. -/
theorem Orderly.moved (h : w.Orderly) {work : RetryQueue κ} (hqueue : work.queue.Orderly)
    (hprocessing : work.queue.processing = w.work.queue.processing) :
    Orderly { w with work } :=
  ⟨hqueue, h.held_nodup, fun key => by rw [hprocessing]; exact h.processing_iff key⟩

variable [Std.TransOrd κ]

theorem offer_of_nil (h : w.work.queue.queued = []) :
    w.offer = if w.work.queue.closed then .stop else .wait := by
  rw [offer, Queue.get_of_nil h]

theorem offer_of_cons {rest : List κ} (h : w.work.queue.queued = key :: rest) :
    w.offer = .key key := by
  rw [offer, Queue.get_of_cons h]

theorem get_of_nil (h : w.work.queue.queued = []) (worker : Nat) : w.get worker = w := by
  have hqueue : w.work.queue.get.2 = w.work.queue := by rw [Queue.get_of_nil h]
  rw [get, hqueue, offer_of_nil h]
  cases w.work.queue.closed <;> rfl

theorem get_of_cons {rest : List κ} (h : w.work.queue.queued = key :: rest) (worker : Nat) :
    w.get worker =
      { w with
          work :=
            { w.work with
                queue :=
                  { w.work.queue with
                      queued := rest
                      dirty := w.work.queue.dirty.erase key
                      processing := w.work.queue.processing.add key } }
          held := (worker, key) :: w.held } := by
  rw [get, offer_of_cons h, Queue.get_of_cons h]

/-- A key that is handed out is one that no worker has. -/
theorem Orderly.not_held (h : w.Orderly) (hoffer : w.offer = .key key) :
    key ∉ w.held.map (·.2) := by
  intro hheld
  rcases hqueued : w.work.queue.queued with _ | ⟨first, rest⟩
  · rw [offer_of_nil hqueued] at hoffer
    split at hoffer <;> cases hoffer
  · obtain rfl := Offer.key.inj ((offer_of_cons hqueued).symm.trans hoffer)
    have hfree := ((h.queue.mem_queued_iff first).1 (by simp [hqueued])).2
    rw [(h.processing_iff first).2 hheld] at hfree
    cases hfree

/-- Workers are only told to stop when the queue is closed and empty. -/
theorem closed_of_offer_eq_stop (h : w.offer = .stop) :
    w.work.queue.closed = true ∧ w.work.queue.queued = [] := by
  rcases hqueued : w.work.queue.queued with _ | ⟨first, rest⟩
  · rw [offer_of_nil hqueued] at h
    split at h
    · exact ⟨‹_›, rfl⟩
    · cases h
  · rw [offer_of_cons hqueued] at h
    cases h

section Closing

variable [DecidableEq κ]

theorem closed_step (w : Workshop κ) (s : WorkshopStep κ) :
    (w.step s).work.queue.closed = w.work.queue.closed ∨ s = .close := by
  cases s with
  | add key => exact .inl (Queue.closed_add _ key)
  | get worker => exact .inl (Queue.closed_get _)
  | done worker key =>
    refine .inl ?_
    simp only [step]
    split
    · simp only [onQueue, Queue.done_eq]
    · rfl
  | retry now key => exact .inl rfl
  | fire r =>
    refine .inl ?_
    simp only [step]
    split
    · exact Queue.closed_add _ r.key
    · rfl
  | forget key => exact .inl rfl
  | close => exact .inr rfl

/-- A queue that is closed was closed by a step. -/
theorem close_mem_of_closed {steps : List (WorkshopStep κ)}
    (h : (w.run steps).work.queue.closed = true) (hopen : w.work.queue.closed = false) :
    .close ∈ steps := by
  induction steps generalizing w with
  | nil => rw [show w.work.queue.closed = true from h] at hopen; cases hopen
  | cons s rest ih =>
    rcases closed_step w s with hsame | rfl
    · exact List.mem_cons_of_mem _ (ih h (hsame.trans hopen))
    · exact List.mem_cons_self

end Closing

variable [Std.LawfulEqOrd κ]

theorem Orderly.get (h : w.Orderly) (worker : Nat) : (w.get worker).Orderly := by
  rcases hqueued : w.work.queue.queued with _ | ⟨first, rest⟩
  · rwa [get_of_nil hqueued]
  · have hqueue := h.queue.get
    rw [Queue.get_of_cons hqueued] at hqueue
    rw [get_of_cons hqueued]
    refine ⟨hqueue, List.nodup_cons.2 ⟨h.not_held (offer_of_cons hqueued), h.held_nodup⟩,
      fun key => ?_⟩
    rw [OrdSet.contains_add_iff, h.processing_iff, List.map_cons, List.mem_cons]

variable [DecidableEq κ]

theorem Orderly.done (h : w.Orderly) (worker : Nat) (key : κ) :
    (w.step (.done worker key)).Orderly := by
  simp only [step]
  split
  · rename_i hmem
    have hheld : w.work.queue.processing.contains key = true :=
      (h.processing_iff key).2 (List.mem_map_of_mem hmem)
    refine ⟨h.queue.done hheld, h.held_nodup.sublist (List.erase_sublist.map _), fun key' => ?_⟩
    have hnodup : w.held.Nodup := .of_map _ h.held_nodup
    simp only [onQueue, Queue.done_eq, OrdMap.contains_erase_iff, h.processing_iff, List.mem_map,
      hnodup.mem_erase_iff]
    constructor
    · rintro ⟨hne, e, he, rfl⟩
      exact ⟨e, ⟨fun heq => hne (by rw [heq]), he⟩, rfl⟩
    · rintro ⟨e, ⟨hne, he⟩, rfl⟩
      -- no other worker has the key
      refine ⟨fun heq => hne (List.inj_on_of_nodup_map h.held_nodup he hmem heq), e, he, rfl⟩
  · exact h

theorem Orderly.step (h : w.Orderly) (s : WorkshopStep κ) : (w.step s).Orderly := by
  cases s with
  | add key => exact h.moved (h.queue.add key) (Queue.processing_add _ key)
  | get worker => exact h.get worker
  | done worker key => exact h.done worker key
  | retry now key => exact h.moved ⟨h.queue.nodup, h.queue.mem_queued_iff⟩ rfl
  | fire r =>
    simp only [Workshop.step]
    split
    · exact h.moved (h.queue.add r.key) (Queue.processing_add _ r.key)
    · exact h
  | forget key => exact h.moved ⟨h.queue.nodup, h.queue.mem_queued_iff⟩ rfl
  | close => exact h.moved ⟨h.queue.nodup, h.queue.mem_queued_iff⟩ rfl

theorem Orderly.run (h : w.Orderly) (steps : List (WorkshopStep κ)) : (w.run steps).Orderly := by
  induction steps generalizing w with
  | nil => exact h
  | cons s rest ih => exact ih (h.step s)

/-! ### No key is lost -/

theorem owes_of_accepts {s : WorkshopStep κ} (h : w.Accepts s key) : (w.step s).Owes key := by
  obtain ⟨hopen, rfl | ⟨r, hr, rfl, rfl⟩⟩ := h
  · exact (Queue.contains_dirty_add hopen).2 (.inl rfl)
  · simp only [step, hr, if_true]
    exact (Queue.contains_dirty_add hopen).2 (.inl rfl)

/-- A key is to be processed until a worker gets it. -/
theorem Owes.step (h : w.Owes key) (s : WorkshopStep κ) :
    (w.step s).Owes key ∨ ∃ worker, s = .get worker ∧ w.offer = .key key := by
  cases s with
  | add key' => exact .inl (Queue.contains_dirty_add_of h key')
  | get worker =>
    rcases hqueued : w.work.queue.queued with _ | ⟨first, rest⟩
    · exact .inl (by rwa [Workshop.step, get_of_nil hqueued])
    · by_cases hkey : key = first
      · exact .inr ⟨worker, rfl, hkey ▸ offer_of_cons hqueued⟩
      · refine .inl ?_
        rw [Workshop.step, get_of_cons hqueued]
        exact OrdMap.contains_erase_iff.2 ⟨hkey, h⟩
  | done worker key' =>
    refine .inl ?_
    simp only [Workshop.step]
    split
    · simpa only [Owes, onQueue, Queue.done_eq] using h
    · exact h
  | retry now key' => exact .inl h
  | fire r =>
    refine .inl ?_
    simp only [Workshop.step]
    split
    · exact Queue.contains_dirty_add_of h r.key
    · exact h
  | forget key' => exact .inl h
  | close => exact .inl h

theorem Owes.run (h : w.Owes key) (steps : List (WorkshopStep κ)) :
    (w.run steps).Owes key ∨ ∃ before worker after,
      steps = before ++ .get worker :: after ∧ (w.run before).offer = .key key := by
  induction steps generalizing w with
  | nil => exact .inl h
  | cons s rest ih =>
    rcases h.step s with hnext | ⟨worker, rfl, hoffer⟩
    · rcases ih hnext with hend | ⟨before, worker, after, rfl, hoffer⟩
      · exact .inl hend
      · exact .inr ⟨s :: before, worker, after, rfl, hoffer⟩
    · exact .inr ⟨[], worker, rest, rfl, hoffer⟩

/-! ### Exclusion -/

/-- After any steps of any workers, the keys that are queued are distinct, and are
those that are dirty and that no worker has; what a worker gets is a key that
none has. A key that is taken in is to be processed as long as no worker gets
it. Workers are told to stop only after the queue was closed, when no key is
queued. -/
theorem exclusive_and_lossless (backoff : Backoff) (steps : List (WorkshopStep κ)) :
    let w : Workshop κ := (start backoff).run steps
    let q := w.work.queue
    q.queued.Nodup ∧
      (∀ key, key ∈ q.queued ↔ q.dirty.contains key = true ∧ q.processing.contains key = false) ∧
      (∀ key, q.processing.contains key = true ↔ ∃ worker, (worker, key) ∈ w.held) ∧
      (∀ key, w.offer = .key key → ∀ worker, (worker, key) ∉ w.held) ∧
      (∀ s key, w.Accepts s key → ∀ rest, ((w.step s).run rest).Owes key ∨
        ∃ before worker after, rest = before ++ .get worker :: after ∧
          ((w.step s).run before).offer = .key key) ∧
      (w.offer = .stop → .close ∈ steps ∧ q.queued = []) := by
  intro w q
  have h : w.Orderly := (orderly_start backoff).run steps
  have hheld (key : κ) : key ∈ w.held.map (·.2) ↔ ∃ worker, (worker, key) ∈ w.held := by simp
  refine ⟨h.queue.nodup, h.queue.mem_queued_iff, fun key => (h.processing_iff key).trans (hheld key),
    fun key hoffer worker hmem => h.not_held hoffer ((hheld key).2 ⟨worker, hmem⟩),
    fun s key haccepts rest => (owes_of_accepts haccepts).run rest, fun hstop => ?_⟩
  obtain ⟨hclosed, hqueued⟩ := closed_of_offer_eq_stop hstop
  exact ⟨close_mem_of_closed hclosed rfl, hqueued⟩

/-- A key is added again while a worker has it. Neither is it handed out to
another one, nor is it lost, though the queue is closed before it is returned. -/
theorem exclusive_and_lossless_of_readded :
    let before : List (WorkshopStep Nat) := [.add 1, .get 0, .add 2, .get 1]
    let rest : List (WorkshopStep Nat) := [.close, .done 0 1]
    let w : Workshop Nat := (start ⟨100, 1000⟩).run (before ++ .add 1 :: rest)
    w.Owes 1 ∧ w.offer = .key 1 ∧ ∀ worker, (worker, 1) ∉ w.held := by
  intro before rest w
  have hoffer : w.offer = .key 1 := rfl
  refine ⟨?_, hoffer, ?_⟩
  · have haccepts : ((start ⟨100, 1000⟩).run before : Workshop Nat).Accepts (.add 1) 1 :=
      ⟨rfl, .inl rfl⟩
    obtain ⟨-, -, -, -, hkept, -⟩ := exclusive_and_lossless ⟨100, 1000⟩ before
    rcases hkept (.add 1) 1 haccepts rest with howes | ⟨before', worker, after, hrest, -⟩
    · exact howes
    · have hmem : .get worker ∈ rest := by rw [hrest]; simp
      simp [rest] at hmem
  · obtain ⟨-, -, -, hfree, -, -⟩ :=
      exclusive_and_lossless ⟨100, 1000⟩ (before ++ .add 1 :: rest)
    exact hfree 1 hoffer

end Workshop

end PodFirewall
