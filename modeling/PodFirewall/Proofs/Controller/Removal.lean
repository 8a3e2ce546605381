import PodFirewall.Cluster.Pod
import PodFirewall.Controller.Basic
import PodFirewall.Proofs.Queue.Keys
import PodFirewall.Proofs.Watch.Store

/-!
What the handler is told of an object that is gone from the store. The tracker
remembers what was handled with success only, and the worker tells of a removal
only if something is remembered. So once nothing is left to do, the last call
for the key of such an object was a removal, exactly if the last call that
brought an object was not a failed addition.
-/

namespace PodFirewall

/-- How a call of the handler ended: with success, with a retry asked for, or
with the change given up. -/
inductive Ending where
  | succeeded
  | retried
  | dropped
  deriving DecidableEq

structure Answer (α : Type) where
  key : ObjectKey
  change : Change (Stored α)
  ending : Ending

namespace Answer

variable {α : Type}

def brings (a : Answer α) : Bool := a.change.new.isSome

/-- Whether the handler failed at an object that nothing was known of. -/
def failedAddition (a : Answer α) : Bool :=
  a.brings && a.change.old.isNone && a.ending != .succeeded

end Answer

/-- A controller with the calls of its handler that have ended, the latest one
first. -/
structure Diary (α : Type) where
  controller : Controller α
  calls : List (Answer α)

variable {α : Type}

def Controller.answer? (c : Controller α) : ControllerStep α → Option (Answer α)
  | .settle succeeded =>
    match c.phase with
    | .handling key change =>
      some ⟨key, change,
        if succeeded then .succeeded
        else if c.work.queue.failuresOf key < c.maxRetries then .retried
        else .dropped⟩
    | _ => none
  | _ => none

/-- Whether nothing is left to do: no key is reported, queued, processed or to be
tried again. -/
structure Controller.Drained (c : Controller α) : Prop where
  reported : c.reported = []
  queued : c.work.queue.queued = []
  processing : c.work.queue.processing = ∅
  pending : c.work.pending = []

def WorkerPhase.key? : WorkerPhase α → Option ObjectKey
  | idle | stopped => none
  | taken key | handling key _ | leaving key => some key

namespace Diary

def start (backoff : Backoff) (maxRetries : Nat) : Diary α := ⟨.start backoff maxRetries, []⟩

def step (d : Diary α) (s : ControllerStep α) : Diary α :=
  ⟨d.controller.step s, (d.controller.answer? s).toList ++ d.calls⟩

def run (d : Diary α) (steps : List (ControllerStep α)) : Diary α := steps.foldl step d

def last? (d : Diary α) (key : ObjectKey) : Option (Answer α) := d.calls.find? (·.key == key)

def lastBrought? (d : Diary α) (key : ObjectKey) : Option (Answer α) :=
  d.calls.find? fun a => a.key == key && a.brings

def EndsRemoved (d : Diary α) (key : ObjectKey) : Prop :=
  ∃ a, d.last? key = some a ∧ a.brings = false

theorem step_controller (d : Diary α) (s : ControllerStep α) :
    (d.step s).controller = d.controller.step s := rfl

theorem run_controller (d : Diary α) (steps : List (ControllerStep α)) :
    (d.run steps).controller = d.controller.run steps := by
  induction steps generalizing d with
  | nil => rfl
  | cons s rest ih => exact ih (d.step s)

end Diary

/-! ### What the queue says of a key -/

namespace Queue

variable {q : Queue ObjectKey} {key key' : ObjectKey}

/-- Whether a key that is to be processed can be handed out, or is handed out
already and will be queued after that. -/
def Serves (q : Queue ObjectKey) (key : ObjectKey) : Prop :=
  q.dirty.contains key = true → key ∈ q.queued ∨ q.processing.contains key = true

theorem Serves.add (h : q.Serves key) (hopen : q.closed = false) : (q.add key').Serves key := by
  rcases add_cases hopen key' with ⟨-, hadd⟩ | ⟨-, hadd⟩
  · rwa [hadd]
  · rw [hadd]
    intro hdirty
    dsimp only
    rcases OrdSet.contains_add_iff.1 hdirty with rfl | hdirty
    · split
      · exact .inr ‹_›
      · exact .inl (List.mem_append_right _ (List.mem_singleton_self _))
    · refine (h hdirty).imp_left fun hqueued => ?_
      split
      · exact hqueued
      · exact List.mem_append_left _ hqueued

theorem Serves.done (h : q.Serves key) : (q.done key').Serves key := by
  rw [done_eq]
  intro hdirty
  dsimp only at hdirty ⊢
  by_cases hkey : key = key'
  · rw [if_pos (hkey ▸ hdirty)]
    exact .inl (List.mem_append_right _ (by simp [hkey]))
  · refine (h hdirty).imp (fun hqueued => ?_) fun h => OrdMap.contains_erase_iff.2 ⟨hkey, h⟩
    split
    · exact List.mem_append_left _ hqueued
    · exact hqueued

end Queue

/-! ### What the steps keep -/

def Controller.Awaits (c : Controller α) (key : ObjectKey) : Prop :=
  key ∈ c.reported ∨ c.work.queue.dirty.contains key = true ∨ ∃ r ∈ c.work.pending, r.key = key

theorem Controller.Drained.not_awaits {c : Controller α} {key : ObjectKey}
    (h : c.Drained) (hserves : c.work.queue.Serves key) : ¬c.Awaits key := by
  rintro (hkey | hkey | ⟨r, hr, -⟩)
  · rw [h.reported] at hkey
    cases hkey
  · have hserved := hserves hkey
    rw [h.queued, h.processing] at hserved
    exact hserved.elim (fun h => nomatch h) (fun h => nomatch h)
  · rw [h.pending] at hr
    cases hr

/-- A reported key is queued in its turn. -/
theorem Controller.Awaits.announce {c : Controller α} {key : ObjectKey} (h : c.Awaits key)
    (hopen : c.work.queue.closed = false) : (c.step .announce).Awaits key := by
  rcases hreported : c.reported with _ | ⟨first, rest⟩
  · simpa [Controller.step, hreported] using h
  · have hstep : c.step .announce = { c with reported := rest }.onQueue (·.add first) := by
      simp [Controller.step, hreported]
    rw [hstep]
    rcases h with hkey | hkey | hkey
    · rw [hreported, List.mem_cons] at hkey
      exact hkey.symm.imp_right fun hkey =>
        .inl ((Queue.contains_dirty_add hopen).2 (.inl hkey))
    · exact .inr (.inl ((Queue.contains_dirty_add hopen).2 (.inr hkey)))
    · exact .inr (.inr hkey)

/-- A key that is to be tried again is queued in its turn. -/
theorem Controller.Awaits.fire {c : Controller α} {key : ObjectKey} (h : c.Awaits key)
    (hopen : c.work.queue.closed = false) (r : Retry ObjectKey) :
    (c.step (.fire r)).Awaits key := by
  by_cases hpending : r ∈ c.work.pending
  · have hstep : c.step (.fire r) = { c with work := c.work.fire r } := by
      simp [Controller.step, hpending]
    rw [hstep]
    rcases h with hkey | hkey | ⟨r', hr', hkey⟩
    · exact .inl hkey
    · exact .inr (.inl ((Queue.contains_dirty_add hopen).2 (.inr hkey)))
    · by_cases hsame : r' = r
      · exact .inr (.inl ((Queue.contains_dirty_add hopen).2 (.inl (hsame ▸ hkey.symm))))
      · exact .inr (.inr ⟨r', (List.mem_erase_of_ne hsame).2 hr', hkey⟩)
  · simpa [Controller.step, hpending] using h

namespace Diary

variable {d : Diary α} {key key' : ObjectKey} {change : Change (Stored α)}

/-- What is remembered of a key that was handled: the object of the last call
that brought one, or the one known before if that call failed, unless it was
tried to remove it since. -/
def Accounts (d : Diary α) (key : ObjectKey) : Prop :=
  ∀ a, d.lastBrought? key = some a →
    d.EndsRemoved key ∧ a.failedAddition = false ∨
      d.last? key = some a ∧ d.controller.tracker.processed.get? key =
        if a.ending = .succeeded then a.change.new else a.change.old

/-- What the steps of a controller that is open keep for a key. -/
structure Kept (key : ObjectKey) (d : Diary α) : Prop where
  isOpen : d.controller.work.queue.closed = false
  serves : d.controller.work.queue.Serves key
  held : d.controller.phase.key? = some key →
    d.controller.work.queue.processing.contains key = true
  /-- The handler is told what is remembered, and what is stored unless the
  worker will come to the key again. -/
  handling : ∀ change, d.controller.phase = .handling key change →
    change.old = d.controller.tracker.processed.get? key ∧
      (change.new.isSome ∨ change.old.isSome) ∧
      (d.controller.Awaits key ∨ change.new = d.controller.store.get? key)
  /-- A key that is stored no more is not left behind with something
  remembered, unless removing it was tried. -/
  left : d.controller.store.get? key = none →
    d.controller.Awaits key ∨ d.controller.phase = .taken key ∨
      (∃ change, d.controller.phase = .handling key change) ∨
      d.controller.tracker.processed.get? key = none ∨ d.EndsRemoved key
  accounts : d.Accounts key

theorem kept_start (backoff : Backoff) (maxRetries : Nat) (key : ObjectKey) :
    (start backoff maxRetries : Diary α).Kept key where
  isOpen := rfl
  serves := nofun
  held := nofun
  handling _ h := nomatch h
  left _ := .inr (.inr (.inr (.inl rfl)))
  accounts _ h := nomatch h

/-- A step that moves keys along, and nothing else, keeps everything if no key
is lost on the way. -/
theorem Kept.moved (h : d.Kept key) {c : Controller α} (hstore : c.store = d.controller.store)
    (htracker : c.tracker = d.controller.tracker) (hphase : c.phase = d.controller.phase)
    (hprocessing : c.work.queue.processing = d.controller.work.queue.processing)
    (hopen : c.work.queue.closed = false) (hserves : c.work.queue.Serves key)
    (hawaits : d.controller.Awaits key → c.Awaits key) : Kept key ⟨c, d.calls⟩ where
  isOpen := hopen
  serves := hserves
  held hkey := by
    rw [hprocessing]
    exact h.held (hphase ▸ hkey)
  handling change hchange := by
    rw [htracker, hstore]
    obtain ⟨hold, hsome, hnew⟩ := h.handling change (hphase ▸ hchange)
    exact ⟨hold, hsome, hnew.imp_left hawaits⟩
  left hgone := by
    rw [hphase, htracker]
    exact (h.left (hstore ▸ hgone)).imp_left hawaits
  accounts a ha := by
    rw [htracker]
    exact h.accounts a ha

theorem Kept.observe (h : d.Kept key) (event : WatchEvent α) :
    (d.step (.observe event)).Kept key := by
  have hawaits (hkey : d.controller.Awaits key) :
      (d.step (.observe event)).controller.Awaits key :=
    hkey.imp_left (List.mem_append_left _)
  by_cases hreported : key ∈ (d.controller.store.ingest event).2
  · have hnow : (d.step (.observe event)).controller.Awaits key :=
      .inl (List.mem_append_right _ hreported)
    refine ⟨h.isOpen, h.serves, h.held, fun change hchange => ?_, fun _ => .inl hnow, h.accounts⟩
    obtain ⟨hold, hsome, -⟩ := h.handling change hchange
    exact ⟨hold, hsome, .inl hnow⟩
  · have hstore : (d.step (.observe event)).controller.store.get? key =
        d.controller.store.get? key := Store.get?_ingest_of_not_mem hreported
    refine ⟨h.isOpen, h.serves, h.held, fun change hchange => ?_, fun hgone => ?_, h.accounts⟩
    · obtain ⟨hold, hsome, hnew⟩ := h.handling change hchange
      rw [hstore]
      exact ⟨hold, hsome, hnew.imp_left hawaits⟩
    · rw [hstore] at hgone
      exact (h.left hgone).imp_left hawaits

theorem Kept.announce (h : d.Kept key) : (d.step .announce).Kept key := by
  rcases hreported : d.controller.reported with _ | ⟨first, rest⟩
  · simpa [step, Controller.step, Controller.answer?, hreported] using h
  · have hstep : d.step .announce =
        ⟨{ d.controller with reported := rest }.onQueue (·.add first), d.calls⟩ := by
      simp [step, Controller.step, Controller.answer?, hreported]
    rw [hstep]
    refine h.moved rfl rfl rfl (Queue.processing_add _ _) ((Queue.closed_add _ _).trans h.isOpen)
      (h.serves.add h.isOpen) fun hkey => ?_
    have hafter := hkey.announce h.isOpen
    rwa [← Diary.step_controller, hstep] at hafter

theorem Kept.fire (h : d.Kept key) (r : Retry ObjectKey) : (d.step (.fire r)).Kept key := by
  by_cases hpending : r ∈ d.controller.work.pending
  · have hstep : d.step (.fire r) =
        ⟨{ d.controller with work := d.controller.work.fire r }, d.calls⟩ := by
      simp [step, Controller.step, Controller.answer?, hpending]
    rw [hstep]
    refine h.moved rfl rfl rfl (Queue.processing_add _ _) ((Queue.closed_add _ _).trans h.isOpen)
      (h.serves.add h.isOpen) fun hkey => ?_
    have hafter := hkey.fire h.isOpen r
    rwa [← Diary.step_controller, hstep] at hafter
  · simpa [step, Controller.step, Controller.answer?, hpending] using h

theorem Kept.take (h : d.Kept key) : (d.step .take).Kept key := by
  rcases hphase : d.controller.phase with _ | _ | _ | _ | _
  case idle =>
    rcases Queue.get_cases h.isOpen with hget | ⟨next, rest, hqueued, hget⟩
    · simpa [step, Controller.step, Controller.answer?, Controller.take, hphase, hget] using h
    · have hstep : d.step .take = ⟨{ d.controller with
          work := ⟨⟨rest, d.controller.work.queue.dirty.erase next,
            d.controller.work.queue.processing.add next, d.controller.work.queue.failures, false⟩,
            d.controller.work.pending⟩
          phase := .taken next }, d.calls⟩ := by
        simp [step, Controller.step, Controller.answer?, Controller.take, hphase, hget]
      rw [hstep]
      refine ⟨rfl, fun hdirty => ?_, fun hkey => ?_, (fun _ h => by cases h), fun hgone => ?_,
        h.accounts⟩
      · obtain ⟨hne, hdirty⟩ := OrdMap.contains_erase_iff.1 hdirty
        have hserved := h.serves hdirty
        rw [hqueued, List.mem_cons] at hserved
        exact hserved.imp (·.resolve_left hne) fun h => OrdSet.contains_add_iff.2 (.inr h)
      · exact OrdSet.contains_add_iff.2 (.inl (Option.some.inj hkey).symm)
      · by_cases hnext : key = next
        · exact .inr (.inl (by rw [hnext]))
        · rcases h.left hgone with (hkey | hkey | hkey) | hkey | ⟨_, hkey⟩ | hkey
          · exact .inl (.inl hkey)
          · exact .inl (.inr (.inl (OrdMap.contains_erase_iff.2 ⟨hnext, hkey⟩)))
          · exact .inl (.inr (.inr hkey))
          · rw [hphase] at hkey
            cases hkey
          · rw [hphase] at hkey
            cases hkey
          · exact .inr (.inr (.inr hkey))
  all_goals simpa [step, Controller.step, Controller.answer?, hphase] using h

theorem Kept.read (h : d.Kept key) : (d.step .read).Kept key := by
  rcases hphase : d.controller.phase with _ | k | _ | _ | _
  case taken =>
    have hheld (hkey : some k = some key) :
        d.controller.work.queue.processing.contains key = true := h.held (by rw [hphase]; exact hkey)
    have hleft (hne : key ≠ k) (hgone : d.controller.store.get? key = none) :
        d.controller.Awaits key ∨ d.controller.tracker.processed.get? key = none ∨
          d.EndsRemoved key := by
      rcases h.left hgone with hkey | hkey | ⟨_, hkey⟩ | hkey
      · exact .inl hkey
      · rw [hphase] at hkey
        exact absurd (WorkerPhase.taken.inj hkey).symm hne
      · rw [hphase] at hkey
        cases hkey
      · exact .inr hkey
    rcases hcheck : d.controller.tracker.check k (d.controller.store.get? k) with _ | change
    · have hstep : d.step .read = ⟨{ d.controller with phase := .leaving k }, d.calls⟩ := by
        simp [step, Controller.step, Controller.answer?, Controller.look, hphase, hcheck]
      rw [hstep]
      refine ⟨h.isOpen, h.serves, hheld, (fun _ h => nomatch h), fun hgone => ?_, h.accounts⟩
      by_cases hk : key = k
      · -- nothing to tell of a key that is not stored: nothing is remembered
        subst hk
        have hgone : d.controller.store.get? key = none := hgone
        rw [hgone] at hcheck
        exact .inr (.inr (.inr (.inl (Tracker.get?_eq_none_of_check hcheck))))
      · exact (hleft hk hgone).imp_right fun h => .inr (.inr h)
    · obtain ⟨hold, hnew⟩ := Tracker.check_eq_some hcheck
      have hstep : d.step .read = ⟨{ d.controller with phase := .handling k change }, d.calls⟩ := by
        simp [step, Controller.step, Controller.answer?, Controller.look, hphase, hcheck]
      rw [hstep]
      refine ⟨h.isOpen, h.serves, hheld, fun change' hchange => ?_, fun hgone => ?_, h.accounts⟩
      · obtain ⟨rfl, rfl⟩ := WorkerPhase.handling.inj hchange
        exact ⟨hold, Tracker.isSome_of_check hcheck, .inr hnew⟩
      · by_cases hk : key = k
        · exact .inr (.inr (.inl ⟨change, by rw [hk]⟩))
        · exact (hleft hk hgone).imp_right fun h => .inr (.inr h)
  all_goals simpa [step, Controller.step, Controller.answer?, hphase] using h

theorem Kept.leave (h : d.Kept key) : (d.step .leave).Kept key := by
  rcases hphase : d.controller.phase with _ | _ | _ | k | _
  case leaving =>
    have hstep : d.step .leave =
        ⟨{ d.controller with phase := .idle }.onQueue (·.done k), d.calls⟩ := by
      simp [step, Controller.step, Controller.answer?, hphase]
    rw [hstep]
    refine ⟨?_, h.serves.done, (fun h => nomatch h), (fun _ h => nomatch h), fun hgone => ?_,
      h.accounts⟩
    · dsimp only [Controller.onQueue]
      rw [Queue.done_eq]
      exact h.isOpen
    · have hawaits (hkey : d.controller.Awaits key) :
          ({ d.controller with phase := .idle }.onQueue (·.done k)).Awaits key := by
        refine hkey.imp_right (.imp_left fun hdirty => ?_)
        dsimp only [Controller.onQueue]
        rwa [Queue.done_eq]
      rcases h.left hgone with hkey | hkey | ⟨_, hkey⟩ | hkey
      · exact .inl (hawaits hkey)
      · rw [hphase] at hkey
        cases hkey
      · rw [hphase] at hkey
        cases hkey
      · exact .inr (.inr (.inr hkey))
  all_goals simpa [step, Controller.step, Controller.answer?, hphase] using h

/-- When the handler has ended, the queue keeps its keys, and only a success is
remembered. -/
theorem settle_eq (c : Controller α) (k : ObjectKey) (change : Change (Stored α))
    (succeeded : Bool) : ∃ failures more, c.settle k change succeeded =
      { c with
          work := ⟨{ c.work.queue with failures }, c.work.pending ++ more⟩
          tracker := if succeeded then c.tracker.done k change else c.tracker
          phase := .leaving k } := by
  unfold Controller.settle
  dsimp only
  split
  · exact ⟨_, [], by rw [List.append_nil]; rfl⟩
  · split
    · exact ⟨_, _, rfl⟩
    · exact ⟨_, [], by rw [List.append_nil]; rfl⟩

theorem settle_step (hphase : d.controller.phase = .handling key' change) (succeeded : Bool) :
    ∃ failures more a, a.key = key' ∧ a.change = change ∧
      (a.ending = .succeeded ↔ succeeded = true) ∧
      d.step (.settle succeeded) = ⟨{ d.controller with
          work := ⟨{ d.controller.work.queue with failures }, d.controller.work.pending ++ more⟩
          tracker :=
            if succeeded then d.controller.tracker.done key' change else d.controller.tracker
          phase := .leaving key' }, a :: d.calls⟩ := by
  obtain ⟨failures, more, hsettle⟩ := settle_eq d.controller key' change succeeded
  refine ⟨failures, more, ⟨key', change, if succeeded then .succeeded
    else if d.controller.work.queue.failuresOf key' < d.controller.maxRetries then .retried
    else .dropped⟩, rfl, rfl, ?_, ?_⟩
  · cases succeeded
    · rw [if_neg Bool.false_ne_true]
      split <;> simp
    · simp
  · simp [step, Controller.step, Controller.answer?, hphase, hsettle]

/-- A call for another key changes nothing for a key. -/
theorem Kept.settle_of_ne (h : d.Kept key) (hphase : d.controller.phase = .handling key' change)
    (hne : key ≠ key') (succeeded : Bool) : (d.step (.settle succeeded)).Kept key := by
  obtain ⟨failures, more, a, hkey, -, -, hstep⟩ := settle_step hphase succeeded
  rw [hstep]
  generalize htracker : (if succeeded then d.controller.tracker.done key' change
    else d.controller.tracker) = tracker
  have hsame : tracker.processed.get? key = d.controller.tracker.processed.get? key := by
    rw [← htracker]
    split
    · exact Tracker.get?_done_of_ne _ hne _
    · rfl
  have hother : (a.key == key) = false := by simp [hkey, hne.symm]
  have hlast (c : Controller α) : Diary.last? ⟨c, a :: d.calls⟩ key = d.last? key := by
    simp [last?, hother]
  refine ⟨h.isOpen, h.serves, (fun hk => absurd (Option.some.inj hk).symm hne),
    (fun _ h => nomatch h), fun hgone => ?_, fun b hb => ?_⟩
  · rcases h.left hgone with (hk | hk | ⟨r, hr, hk⟩) | hk | ⟨_, hk⟩ | hk | hk
    · exact .inl (.inl hk)
    · exact .inl (.inr (.inl hk))
    · exact .inl (.inr (.inr ⟨r, List.mem_append_left _ hr, hk⟩))
    · rw [hphase] at hk
      cases hk
    · rw [hphase] at hk
      exact absurd (WorkerPhase.handling.inj hk).1.symm hne
    · exact .inr (.inr (.inr (.inl (hsame.trans hk))))
    · exact .inr (.inr (.inr (.inr (by rwa [EndsRemoved, hlast]))))
  · rw [EndsRemoved, hlast, hsame]
    refine h.accounts b ?_
    rwa [lastBrought?, List.find?_cons, hother, Bool.false_and] at hb

theorem Kept.settle_self (h : d.Kept key) (hphase : d.controller.phase = .handling key change)
    (succeeded : Bool) : (d.step (.settle succeeded)).Kept key := by
  obtain ⟨hold, hsome, hnew⟩ := h.handling change hphase
  obtain ⟨failures, more, a, hkey, hchange, hending, hstep⟩ := settle_step hphase succeeded
  rw [hstep]
  have hself : (a.key == key) = true := beq_iff_eq.2 hkey
  have hlast (c : Controller α) : Diary.last? ⟨c, a :: d.calls⟩ key = some a := by
    simp [last?, hself]
  have hbrings : a.brings = change.new.isSome := by rw [Answer.brings, hchange]
  refine ⟨h.isOpen, h.serves, (fun _ => h.held (by rw [hphase]; rfl)), (fun _ h => nomatch h),
    fun hgone => ?_, fun b hb => ?_⟩
  · rcases hn : change.new with _ | v
    · exact .inr (.inr (.inr (.inr ⟨a, hlast _, by rw [hbrings, hn]; rfl⟩)))
    · -- an object that is gone by now was reported as gone
      rcases hnew with (hk | hk | ⟨r, hr, hk⟩) | hstored
      · exact .inl (.inl hk)
      · exact .inl (.inr (.inl hk))
      · exact .inl (.inr (.inr ⟨r, List.mem_append_left _ hr, hk⟩))
      · rw [show d.controller.store.get? key = none from hgone, hn] at hstored
        cases hstored
  · rw [lastBrought?, List.find?_cons, hself, Bool.true_and, hbrings] at hb
    rcases hn : change.new with _ | v
    · -- a removal is only told where the last call that brought an object left something
      rw [hn] at hb hsome
      refine .inl ⟨⟨a, hlast _, by rw [hbrings, hn]; rfl⟩, ?_⟩
      rcases h.accounts b hb with ⟨-, hb⟩ | ⟨-, hb⟩
      · exact hb
      · rw [← hold] at hb
        by_cases hok : b.ending = .succeeded
        · simp [Answer.failedAddition, hok]
        · rw [if_neg hok] at hb
          rw [hb] at hsome
          have hnone : b.change.old.isNone = false := by simpa using hsome
          simp [Answer.failedAddition, hnone]
    · rw [hn] at hb
      obtain rfl : a = b := Option.some.inj hb
      refine .inr ⟨hlast _, ?_⟩
      rw [hchange]
      cases succeeded
      · have hfailed : a.ending ≠ .succeeded := fun h => Bool.false_ne_true (hending.1 h)
        rw [if_neg hfailed]
        exact hold.symm
      · rw [if_pos (hending.2 rfl)]
        exact Tracker.get?_done_self _ _ _

theorem Kept.settle (h : d.Kept key) (succeeded : Bool) :
    (d.step (.settle succeeded)).Kept key := by
  rcases hphase : d.controller.phase with _ | _ | ⟨key', change⟩ | _ | _
  case handling =>
    by_cases hkey : key = key'
    · subst hkey
      exact h.settle_self hphase succeeded
    · exact h.settle_of_ne hphase hkey succeeded
  all_goals simpa [step, Controller.step, Controller.answer?, hphase] using h

theorem Kept.step (h : d.Kept key) {s : ControllerStep α} (hs : s ≠ .close) :
    (d.step s).Kept key := by
  cases s with
  | observe event => exact h.observe event
  | announce => exact h.announce
  | take => exact h.take
  | read => exact h.read
  | settle succeeded => exact h.settle succeeded
  | leave => exact h.leave
  | fire r => exact h.fire r
  | elapse span => exact h.moved rfl rfl rfl rfl h.isOpen h.serves id
  | close => exact absurd rfl hs

theorem Kept.run {steps : List (ControllerStep α)} (h : d.Kept key) (hopen : .close ∉ steps) :
    (d.run steps).Kept key := by
  induction steps generalizing d with
  | nil => exact h
  | cons s rest ih =>
    rw [List.mem_cons, not_or] at hopen
    exact ih (h.step (Ne.symm hopen.1)) hopen.2

/-! ### When nothing is left to do -/

/-- Of an object that is gone from the store, the last call was a removal,
exactly if the last call that brought an object was not a failed addition. -/
theorem endsRemoved_iff_not_failedAddition {backoff : Backoff} {maxRetries : Nat}
    {steps : List (ControllerStep α)} {key : ObjectKey} {a : Answer α} (hopen : .close ∉ steps)
    (hdrained : ((start backoff maxRetries).run steps).controller.Drained)
    (hgone : ((start backoff maxRetries).run steps).controller.store.get? key = none)
    (ha : ((start backoff maxRetries).run steps).lastBrought? key = some a) :
    ((start backoff maxRetries).run steps).EndsRemoved key ↔ a.failedAddition = false := by
  have h := (kept_start backoff maxRetries key).run hopen
  generalize (start backoff maxRetries).run steps = d at *
  rcases h.accounts a ha with ⟨hremoved, hadded⟩ | ⟨hlast, htracker⟩
  · exact iff_of_true hremoved hadded
  · have hbrings : a.brings = true := by
      have := List.find?_some ha
      rw [Bool.and_eq_true] at this
      exact this.2
    have hkept : ¬d.EndsRemoved key := by
      rintro ⟨b, hb, hremoved⟩
      rw [hlast, Option.some.injEq] at hb
      rw [← hb, hbrings] at hremoved
      cases hremoved
    refine iff_of_false hkept ?_
    -- the worker has nothing to do with the key, so nothing is remembered of it
    have hidle : d.controller.phase.key? ≠ some key := by
      intro hkey
      have := h.held hkey
      rw [hdrained.processing] at this
      cases this
    have hforgotten : d.controller.tracker.processed.get? key = none := by
      rcases h.left hgone with hkey | hkey | ⟨_, hkey⟩ | hkey | hkey
      · exact absurd hkey (hdrained.not_awaits h.serves)
      · exact absurd (by rw [hkey]; rfl) hidle
      · exact absurd (by rw [hkey]; rfl) hidle
      · exact hkey
      · exact absurd hkey hkept
    rw [hforgotten] at htracker
    split at htracker
    · rw [Answer.brings, ← htracker] at hbrings
      cases hbrings
    · rename_i hfailed
      simp [Answer.failedAddition, hbrings, ← htracker, hfailed]

def spaceKey : ObjectKey := ⟨"", "n"⟩

def visit (succeeded : Bool) : List (ControllerStep Namespace) :=
  let space : Kube.Object Namespace := ⟨⟨some "n", none, ∅, none, none, false⟩, ⟨"n", ∅⟩⟩
  [.observe (.apply space), .announce, .take, .read, .settle succeeded, .leave,
    .observe (.delete space), .announce, .take, .read]

/-- The removal of what was added is told. -/
theorem endsRemoved_of_added :
    let d : Diary Namespace := (start ⟨100, 1000⟩ 3).run (visit true ++ [.settle true, .leave])
    .close ∉ visit true ++ [.settle true, .leave] ∧ d.controller.Drained ∧
      d.controller.store.get? spaceKey = none ∧
      ∃ a, d.lastBrought? spaceKey = some a ∧ a.failedAddition = false ∧ d.EndsRemoved spaceKey := by
  intro d
  have hopen : .close ∉ visit true ++ [.settle true, .leave] := by simp [visit]
  have hdrained : d.controller.Drained := by
    constructor <;> rfl
  have hgone : d.controller.store.get? spaceKey = none := rfl
  obtain ⟨a, ha, hadded⟩ : ∃ a, d.lastBrought? spaceKey = some a ∧ a.failedAddition = false :=
    ⟨_, rfl, rfl⟩
  exact ⟨hopen, hdrained, hgone, a, ha, hadded,
    (endsRemoved_iff_not_failedAddition hopen hdrained hgone ha).2 hadded⟩

/-- The calls after the last successful removal of a key, the latest one
first. -/
def sinceRemoved (d : Diary α) (key : ObjectKey) : List (Answer α) :=
  d.calls.takeWhile fun a => !(a.key == key && !a.brings && a.ending == .succeeded)

/-- The first call for a namespace fails, and before it is tried again the
namespace is gone. Its removal is never told, though no change is given up. -/
theorem failed_addition_stays :
    ¬∀ (backoff : Backoff) (maxRetries : Nat) (steps : List (ControllerStep Namespace))
      (key : ObjectKey), .close ∉ steps →
        ((start backoff maxRetries).run steps).controller.Drained →
        ((start backoff maxRetries).run steps).controller.store.get? key = none →
        (∀ a ∈ ((start backoff maxRetries).run steps).calls, a.ending ≠ .dropped) →
        (∃ a ∈ ((start backoff maxRetries).run steps).sinceRemoved key,
          a.key = key ∧ a.brings = true) →
        ((start backoff maxRetries).run steps).EndsRemoved key := by
  intro h
  let steps := visit false ++
    [.leave, .elapse 100, .fire ⟨100, spaceKey⟩, .take, .read, .leave]
  let d : Diary Namespace := (start ⟨100, 1000⟩ 3).run steps
  obtain ⟨a, ha, hremoved⟩ := h ⟨100, 1000⟩ 3 steps spaceKey (by simp [steps, visit])
    (by constructor <;> rfl) rfl (by decide +kernel) (by decide +kernel)
  cases ha
  cases hremoved

end Diary

end PodFirewall
