import PodFirewall.Proofs.Controller.Removal

/-!
No change is lost. The store, the queue, the tracker and the retries each drop
something on purpose: a known version, a key that is queued already, a state
that was never processed, a failure too many. Still, an object that is not what
the tracker remembers is always on its way to the handler: its key is reported,
queued, to be tried again or with the worker, unless just this change was given
up or the queue was closed.
-/

namespace PodFirewall

variable {α : Type}

namespace Controller

variable {c : Controller α} {key : ObjectKey}

/-- Whether the object of a key is not the one that was last processed: another
arrival, or gone, or there at all. -/
def Behind (c : Controller α) (key : ObjectKey) : Prop :=
  (c.store.get? key).map (·.stamp) ≠ (c.tracker.processed.get? key).map (·.stamp)

instance (c : Controller α) (key : ObjectKey) : Decidable (c.Behind key) :=
  inferInstanceAs (Decidable (_ ≠ _))

/-- The worker is told of a change exactly if the key is behind. -/
theorem behind_iff : c.Behind key ↔ (c.tracker.check key (c.store.get? key)).isSome = true :=
  ne_comm.trans Tracker.isSome_check.symm

/-! ### What becomes of a key that is awaited -/

theorem Awaits.take (h : c.Awaits key) (hopen : c.work.queue.closed = false) :
    (c.step .take).Awaits key ∨ (c.step .take).phase = .taken key := by
  rcases hphase : c.phase with _ | _ | _ | _ | _
  case idle =>
    rcases Queue.get_cases hopen with hget | ⟨next, rest, -, hget⟩
    · exact .inl (by simpa [Controller.step, Controller.take, hphase, hget] using h)
    · by_cases hnext : key = next
      · exact .inr (by simp [Controller.step, Controller.take, hphase, hget, hnext])
      · have hstep : c.step .take = { c with
            work := ⟨⟨rest, c.work.queue.dirty.erase next, c.work.queue.processing.add next,
              c.work.queue.failures, false⟩, c.work.pending⟩
            phase := .taken next } := by
          simp [Controller.step, Controller.take, hphase, hget]
        rw [hstep]
        exact .inl (h.imp_right (.imp_left fun hdirty => OrdMap.contains_erase_iff.2 ⟨hnext, hdirty⟩))
  all_goals exact .inl (by simpa [Controller.step, hphase] using h)

/-- A key that the worker is to come to again stays one, until the worker has
it. -/
theorem Awaits.step (h : c.Awaits key) (hopen : c.work.queue.closed = false)
    {s : ControllerStep α} (hs : s ≠ .close) :
    (c.step s).Awaits key ∨ (c.step s).phase = .taken key := by
  cases s with
  | observe event => exact .inl (h.imp_left (List.mem_append_left _))
  | announce => exact .inl (h.announce hopen)
  | take => exact h.take hopen
  | read =>
    refine .inl ?_
    simp only [Controller.step]
    split
    · unfold look
      split <;> exact h
    · exact h
  | settle succeeded =>
    refine .inl ?_
    simp only [Controller.step]
    split
    · rename_i k change _
      obtain ⟨failures, more, hsettle⟩ := Diary.settle_eq c k change succeeded
      rw [hsettle]
      refine h.imp_right (.imp_right ?_)
      rintro ⟨r, hr, hkey⟩
      exact ⟨r, List.mem_append_left _ hr, hkey⟩
    · exact h
  | leave =>
    refine .inl ?_
    simp only [Controller.step]
    split
    · refine h.imp_right (.imp_left fun hdirty => ?_)
      simp only [onQueue]
      rwa [Queue.done_eq]
    · exact h
  | fire r => exact .inl (h.fire hopen r)
  | elapse span => exact .inl h
  | close => exact absurd rfl hs

/-- A change that failed and is not given up is to be tried again. -/
theorem awaits_settle_of_lt {change : Change (Stored α)}
    (hphase : c.phase = .handling key change)
    (hlt : c.work.queue.failuresOf key < c.maxRetries) :
    (c.step (.settle false)).Awaits key := by
  simp only [Controller.step, hphase, settle, Bool.false_eq_true, if_false, hlt, if_true]
  exact .inr (.inr ⟨_, List.mem_append_right _ (List.mem_singleton_self _), rfl⟩)

theorem closed_step (h : c.work.queue.closed = true) (s : ControllerStep α) :
    (c.step s).work.queue.closed = true := by
  cases s with
  | observe event => exact h
  | announce =>
    simp only [Controller.step]
    split
    · exact (Queue.closed_add _ _).trans h
    · exact h
  | take =>
    simp only [Controller.step]
    split
    · have hget := Queue.closed_get c.work.queue
      unfold Controller.take
      split <;> simp_all
    · exact h
  | read =>
    simp only [Controller.step]
    split
    · unfold look
      split <;> exact h
    · exact h
  | settle succeeded =>
    simp only [Controller.step]
    split
    · rename_i k change _
      obtain ⟨failures, more, hsettle⟩ := Diary.settle_eq c k change succeeded
      rw [hsettle]
      exact h
    · exact h
  | leave =>
    simp only [Controller.step]
    split
    · simp only [onQueue]
      rw [Queue.done_eq]
      exact h
    · exact h
  | fire r =>
    simp only [Controller.step]
    split
    · exact (Queue.closed_add _ _).trans h
    · exact h
  | elapse span => exact h
  | close => rfl

/-- A queue that was closed at some time is closed from then on. -/
theorem closed_run {steps : List (ControllerStep α)} (hclose : .close ∈ steps) :
    (c.run steps).work.queue.closed = true := by
  have hstays (c : Controller α) (hc : c.work.queue.closed = true) (rest : List (ControllerStep α)) :
      (c.run rest).work.queue.closed = true := by
    induction rest generalizing c with
    | nil => exact hc
    | cons s rest ih => exact ih (c.step s) (closed_step hc s)
  obtain ⟨before, after, rfl⟩ := List.append_of_mem hclose
  rw [run, List.foldl_append]
  exact hstays _ rfl after

end Controller

namespace Diary

variable {d : Diary α} {key key' : ObjectKey} {change : Change (Stored α)}

/-- Whether a key that is behind is on its way to the handler, or has just this
change given up. -/
def Covered (d : Diary α) (key : ObjectKey) : Prop :=
  d.controller.Behind key →
    d.controller.Awaits key ∨ d.controller.phase = .taken key ∨
      (∃ change, d.controller.phase = .handling key change ∧
        change.new = d.controller.store.get? key) ∨
      ∃ a, d.last? key = some a ∧ a.ending = .dropped ∧
        a.change.old = d.controller.tracker.processed.get? key ∧
        a.change.new = d.controller.store.get? key

theorem covered_start (backoff : Backoff) (maxRetries : Nat) (key : ObjectKey) :
    (start backoff maxRetries : Diary α).Covered key :=
  fun h => absurd rfl h

/-- A step that neither touches what is stored, remembered or told of a key nor
takes it from the worker leaves it covered. -/
theorem Covered.idly (h : d.Covered key) {e : Diary α}
    (hstore : e.controller.store.get? key = d.controller.store.get? key)
    (htracker : e.controller.tracker.processed.get? key =
      d.controller.tracker.processed.get? key)
    (hlast : e.last? key = d.last? key)
    (hawaits : d.controller.Awaits key →
      e.controller.Awaits key ∨ e.controller.phase = .taken key)
    (hphase : (d.controller.phase = .taken key ∨
        ∃ change, d.controller.phase = .handling key change) →
      e.controller.phase = d.controller.phase) :
    e.Covered key := by
  intro hbehind
  unfold Controller.Behind at hbehind
  rw [hstore, htracker] at hbehind
  rw [hstore, htracker, hlast]
  rcases h hbehind with hkey | hkey | ⟨change, hkey, hnew⟩ | hdropped
  · exact (hawaits hkey).imp_right .inl
  · exact .inr (.inl ((hphase (.inl hkey)).trans hkey))
  · exact .inr (.inr (.inl ⟨change, (hphase (.inr ⟨change, hkey⟩)).trans hkey, hnew⟩))
  · exact .inr (.inr (.inr hdropped))

theorem Covered.observe (h : d.Covered key) (event : WatchEvent α) :
    (d.step (.observe event)).Covered key := by
  by_cases hreported : key ∈ (d.controller.store.ingest event).2
  · exact fun _ => .inl (.inl (List.mem_append_right _ hreported))
  · exact h.idly (Store.get?_ingest_of_not_mem hreported) rfl rfl
      (fun hkey => .inl (hkey.imp_left (List.mem_append_left _))) fun _ => rfl

theorem Covered.read (h : d.Covered key) : (d.step .read).Covered key := by
  rcases hphase : d.controller.phase with _ | k | _ | _ | _
  case taken =>
    by_cases hk : key = k
    · subst hk
      rcases hcheck : d.controller.tracker.check key (d.controller.store.get? key) with _ | change
      · -- the worker is told of no change, so the key is not behind
        have hstep : (d.step .read).controller = { d.controller with phase := .leaving key } := by
          simp [step, Controller.step, Controller.look, hphase, hcheck]
        intro hbehind
        rw [hstep] at hbehind
        have hsome := Controller.behind_iff.1 hbehind
        rw [hcheck] at hsome
        cases hsome
      · have hstep : (d.step .read).controller =
            { d.controller with phase := .handling key change } := by
          simp [step, Controller.step, Controller.look, hphase, hcheck]
        intro _
        rw [hstep]
        exact .inr (.inr (.inl ⟨change, rfl, (Tracker.check_eq_some hcheck).2⟩))
    · obtain ⟨phase, hstep⟩ : ∃ phase, d.step .read = ⟨{ d.controller with phase }, d.calls⟩ := by
        simp only [step, Controller.step, Controller.answer?, Controller.look, hphase]
        split <;> exact ⟨_, rfl⟩
      rw [hstep]
      refine h.idly rfl rfl rfl .inl ?_
      rintro (hkey | ⟨_, hkey⟩)
      · rw [hphase] at hkey
        exact absurd (WorkerPhase.taken.inj hkey).symm hk
      · rw [hphase] at hkey
        cases hkey
  all_goals simpa [step, Controller.step, Controller.answer?, hphase] using h

/-- A call that ends leaves its key processed as it was told, to be tried again
or given up. -/
theorem Covered.settle_self (h : d.Kept key) (hphase : d.controller.phase = .handling key change)
    (succeeded : Bool) : (d.step (.settle succeeded)).Covered key := by
  obtain ⟨hold, -, hnew⟩ := h.handling change hphase
  rcases hnew with hawaits | hnew
  · -- the object has changed since it was read, so the key was reported since
    intro _
    exact (hawaits.step (s := .settle succeeded) h.isOpen nofun).imp_right .inl
  cases succeeded with
  | true =>
    have hstep : (d.step (.settle true)).controller.store = d.controller.store ∧
        (d.step (.settle true)).controller.tracker = d.controller.tracker.done key change := by
      simp [step, Controller.step, Controller.settle, Controller.onQueue, hphase]
    intro hbehind
    unfold Controller.Behind at hbehind
    rw [hstep.1, hstep.2, Tracker.get?_done_self, hnew] at hbehind
    exact absurd rfl hbehind
  | false =>
    by_cases hlt : d.controller.work.queue.failuresOf key < d.controller.maxRetries
    · exact fun _ => .inl (Controller.awaits_settle_of_lt hphase hlt)
    · have hstep : d.step (.settle false) = ⟨{ d.controller with
            phase := .leaving key }.onQueue (·.forget key),
          ⟨key, change, .dropped⟩ :: d.calls⟩ := by
        simp [step, Controller.step, Controller.settle, Controller.answer?, Controller.onQueue,
          hphase, hlt]
      intro _
      rw [hstep]
      exact .inr (.inr (.inr ⟨⟨key, change, .dropped⟩, by simp [last?], rfl, hold, hnew⟩))

/-- A call for another key changes nothing for a key. -/
theorem Covered.settle_of_ne (h : d.Covered key)
    (hphase : d.controller.phase = .handling key' change) (hne : key ≠ key') (succeeded : Bool) :
    (d.step (.settle succeeded)).Covered key := by
  obtain ⟨failures, more, a, hkey, -, -, hstep⟩ := settle_step hphase succeeded
  rw [hstep]
  refine h.idly rfl ?_ ?_ (fun hk => .inl (hk.imp_right (.imp_right fun ⟨r, hr, hk⟩ =>
    ⟨r, List.mem_append_left _ hr, hk⟩))) ?_
  · dsimp only
    split
    · exact Tracker.get?_done_of_ne _ hne _
    · rfl
  · simp [last?, hkey, hne.symm]
  · rintro (hk | ⟨_, hk⟩)
    · rw [hphase] at hk
      cases hk
    · rw [hphase] at hk
      exact absurd (WorkerPhase.handling.inj hk).1.symm hne

theorem Covered.settle (h : d.Covered key) (hkept : d.Kept key) (succeeded : Bool) :
    (d.step (.settle succeeded)).Covered key := by
  rcases hphase : d.controller.phase with _ | _ | ⟨key', change⟩ | _ | _
  case handling =>
    by_cases hkey : key = key'
    · subst hkey
      exact settle_self hkept hphase succeeded
    · exact h.settle_of_ne hphase hkey succeeded
  all_goals simpa [step, Controller.step, Controller.answer?, hphase] using h

theorem Covered.take (h : d.Covered key) (hopen : d.controller.work.queue.closed = false) :
    (d.step .take).Covered key := by
  rcases hphase : d.controller.phase with _ | _ | _ | _ | _
  case idle =>
    have hstay : (d.step .take).controller.store = d.controller.store ∧
        (d.step .take).controller.tracker = d.controller.tracker := by
      simp only [step, Controller.step, Controller.take, hphase]
      split <;> exact ⟨rfl, rfl⟩
    refine h.idly (by rw [hstay.1]) (by rw [hstay.2]) rfl (fun hkey => hkey.take hopen) ?_
    rintro (hkey | ⟨_, hkey⟩)
    all_goals
      rw [hphase] at hkey
      cases hkey
  all_goals simpa [step, Controller.step, Controller.answer?, hphase] using h

theorem Covered.leave (h : d.Covered key) (hopen : d.controller.work.queue.closed = false) :
    (d.step .leave).Covered key := by
  rcases hphase : d.controller.phase with _ | _ | _ | k | _
  case leaving =>
    refine h.idly ?_ ?_ rfl (fun hkey => hkey.step hopen nofun) ?_
    · simp [step, Controller.step, Controller.onQueue, hphase]
    · simp [step, Controller.step, Controller.onQueue, hphase]
    · rintro (hkey | ⟨_, hkey⟩)
      all_goals
        rw [hphase] at hkey
        cases hkey
  all_goals simpa [step, Controller.step, Controller.answer?, hphase] using h

theorem Covered.announce (h : d.Covered key) (hopen : d.controller.work.queue.closed = false) :
    (d.step .announce).Covered key := by
  have hstay : (d.step .announce).controller.store = d.controller.store ∧
      (d.step .announce).controller.tracker = d.controller.tracker ∧
      (d.step .announce).controller.phase = d.controller.phase := by
    simp only [step, Controller.step]
    split <;> exact ⟨rfl, rfl, rfl⟩
  exact h.idly (by rw [hstay.1]) (by rw [hstay.2.1]) rfl (fun hkey => .inl (hkey.announce hopen))
    fun _ => hstay.2.2

theorem Covered.fire (h : d.Covered key) (hopen : d.controller.work.queue.closed = false)
    (r : Retry ObjectKey) : (d.step (.fire r)).Covered key := by
  have hstay : (d.step (.fire r)).controller.store = d.controller.store ∧
      (d.step (.fire r)).controller.tracker = d.controller.tracker ∧
      (d.step (.fire r)).controller.phase = d.controller.phase := by
    simp only [step, Controller.step]
    split <;> exact ⟨rfl, rfl, rfl⟩
  exact h.idly (by rw [hstay.1]) (by rw [hstay.2.1]) rfl (fun hkey => .inl (hkey.fire hopen r))
    fun _ => hstay.2.2

theorem Covered.step (h : d.Covered key) (hkept : d.Kept key) {s : ControllerStep α}
    (hs : s ≠ .close) : (d.step s).Covered key := by
  cases s with
  | observe event => exact h.observe event
  | announce => exact h.announce hkept.isOpen
  | take => exact h.take hkept.isOpen
  | read => exact h.read
  | settle succeeded => exact h.settle hkept succeeded
  | leave => exact h.leave hkept.isOpen
  | fire r => exact h.fire hkept.isOpen r
  | elapse span => exact h.idly rfl rfl rfl .inl fun _ => rfl
  | close => exact absurd rfl hs

theorem Covered.run {steps : List (ControllerStep α)} (h : d.Covered key) (hkept : d.Kept key)
    (hopen : .close ∉ steps) : (d.run steps).Covered key := by
  induction steps generalizing d with
  | nil => exact h
  | cons s rest ih =>
    rw [List.mem_cons, not_or] at hopen
    exact ih (h.step hkept (Ne.symm hopen.1)) (hkept.step (Ne.symm hopen.1)) hopen.2

/-- After any steps, a key whose object is not the one that was last processed
is reported or queued or to be tried again, or the worker has it and is about to
read it or handles just what is stored, or just this change was given up, or the
queue was closed. -/
theorem behind_on_its_way (backoff : Backoff) (maxRetries : Nat)
    (steps : List (ControllerStep α)) (key : ObjectKey)
    (hbehind : ((start backoff maxRetries).run steps).controller.Behind key) :
    let d := (start backoff maxRetries).run steps
    let c := d.controller
    key ∈ c.reported ∨
      c.work.queue.dirty.contains key = true ∨
      (∃ r ∈ c.work.pending, r.key = key) ∨
      c.phase = .taken key ∨
      (∃ change, c.phase = .handling key change ∧ change.new = c.store.get? key) ∨
      (∃ a, d.last? key = some a ∧ a.ending = .dropped ∧
        a.change.old = c.tracker.processed.get? key ∧ a.change.new = c.store.get? key) ∨
      c.work.queue.closed = true := by
  intro d c
  by_cases hclose : .close ∈ steps
  · have hclosed : c.work.queue.closed = true := by
      simp only [c, d, run_controller]
      exact Controller.closed_run hclose
    simp [hclosed]
  · have hcovered : d.Covered key :=
      (covered_start backoff maxRetries key).run (kept_start backoff maxRetries key) hclose
    rcases hcovered hbehind with (h | h | h) | h | h | h
    all_goals simp only [c, h, true_or, or_true]

/-- A namespace that is seen, and whose only call fails without a retry left, is
behind, and nothing is left of it but the change that was given up. -/
theorem behind_given_up :
    let steps := (visit false).take 5 ++ [.leave]
    let d : Diary Namespace := (start ⟨100, 1000⟩ 0).run steps
    d.controller.Behind spaceKey ∧
      ∃ a, d.last? spaceKey = some a ∧ a.ending = .dropped ∧
        a.change.new = d.controller.store.get? spaceKey := by
  intro steps d
  have hbehind : d.controller.Behind spaceKey := by decide +kernel
  refine ⟨hbehind, ?_⟩
  rcases behind_on_its_way ⟨100, 1000⟩ 0 steps spaceKey hbehind with
    h | h | ⟨r, hr, -⟩ | h | ⟨_, h, -⟩ | ⟨a, ha, hending, -, hnew⟩ | h
  · cases h
  · cases h
  · cases hr
  · cases h
  · cases h
  · exact ⟨a, ha, hending, hnew⟩
  · cases h

end Diary

end PodFirewall
