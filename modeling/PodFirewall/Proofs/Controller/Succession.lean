import Mathlib.Data.List.Induction
import PodFirewall.Proofs.Controller.Removal
import PodFirewall.Proofs.Watch.Reports

/-!
How the calls of the handler follow each other. The tracker remembers what the
last successful call for a key was given, so each call starts from there, and
it brings what the store holds when the worker looks. The calls for a key are
thus a walk through what the store held for it, in the order of the store; and
since no arrival comes back to a place that it left, the walk never turns.
-/

namespace PodFirewall

variable {α : Type}

/-- Whether the kind of a change says which of the two objects are there. -/
def Change.KindFits (c : Change α) : Prop :=
  match c.kind with
  | .added => c.old = none ∧ c.new.isSome = true
  | .updated => c.old.isSome = true ∧ c.new.isSome = true
  | .deleted => c.old.isSome = true ∧ c.new = none

theorem Tracker.kindFits_of_check {t : Tracker ObjectKey (Stored α)} {key : ObjectKey}
    {current : Option (Stored α)} {change : Change (Stored α)}
    (h : t.check key current = some change) : change.KindFits := by
  unfold check Change.between? at h
  split at h
  · cases h
  · obtain rfl := Option.some.inj h
    exact ⟨rfl, rfl⟩
  · obtain rfl := Option.some.inj h
    exact ⟨rfl, rfl⟩
  · split at h
    · cases h
    · obtain rfl := Option.some.inj h
      exact ⟨rfl, rfl⟩

/-! ### The calls of the handler -/

structure Attempt (α : Type) where
  time : Nat
  key : ObjectKey
  change : Change (Stored α)
  succeeded : Option Bool

/-- The object that the last successful call for a key brought, among some calls,
the latest first. There is none if that call was a removal. -/
def Attempt.lastDone (attempts : List (Attempt α)) (key : ObjectKey) : Option (Stored α) :=
  (attempts.find? fun a => a.key == key && a.succeeded == some true).bind (·.change.new)

/-- Whether a call fits those before it, the latest first. -/
structure Attempt.Follows (a : Attempt α) (earlier : List (Attempt α)) : Prop where
  /-- It starts from what the last successful call for its key brought. -/
  old : a.change.old = lastDone earlier a.key
  /-- It is given two arrivals that are not the same, or only one. -/
  differs : a.change.old.map (·.stamp) ≠ a.change.new.map (·.stamp)
  kindFits : a.change.KindFits
  later : ∀ b ∈ earlier, b.time < a.time

/-- A controller with all calls of its handler, the latest first. -/
structure Logbook (α : Type) where
  controller : Controller α
  time : Nat
  attempts : List (Attempt α)

namespace Logbook

def start (backoff : Backoff) (maxRetries : Nat) : Logbook α :=
  ⟨.start backoff maxRetries, 0, []⟩

def note (l : Logbook α) : ControllerStep α → List (Attempt α)
  | .read =>
    match l.controller.phase with
    | .taken key =>
      match l.controller.tracker.check key (l.controller.store.get? key) with
      | some change => ⟨l.time, key, change, none⟩ :: l.attempts
      | none => l.attempts
    | _ => l.attempts
  | .settle succeeded =>
    match l.controller.phase with
    | .handling _ _ => l.attempts.modifyHead fun a => { a with succeeded := some succeeded }
    | _ => l.attempts
  | _ => l.attempts

def step (l : Logbook α) (s : ControllerStep α) : Logbook α :=
  ⟨l.controller.step s, l.time + 1, l.note s⟩

def run (l : Logbook α) (steps : List (ControllerStep α)) : Logbook α := steps.foldl step l

variable {l : Logbook α} {key : ObjectKey} {change : Change (Stored α)}

theorem run_concat (l : Logbook α) (steps : List (ControllerStep α)) (s : ControllerStep α) :
    l.run (steps ++ [s]) = (l.run steps).step s := by
  simp [run]

theorem run_controller (l : Logbook α) (steps : List (ControllerStep α)) :
    (l.run steps).controller = l.controller.run steps := by
  induction steps generalizing l with
  | nil => rfl
  | cons s rest ih => exact ih (l.step s)

theorem run_time (l : Logbook α) (steps : List (ControllerStep α)) :
    (l.run steps).time = l.time + steps.length := by
  induction steps generalizing l with
  | nil => rfl
  | cons s rest ih =>
    rw [List.length_cons, Nat.add_comm rest.length, ← Nat.add_assoc]
    exact ih (l.step s)

/-- A step calls the handler, ends a call, or leaves both the calls and what is
remembered alone. -/
theorem step_cases (l : Logbook α) (s : ControllerStep α) :
    (∃ key change, l.controller.tracker.check key (l.controller.store.get? key) = some change ∧
      (l.step s).controller.tracker = l.controller.tracker ∧
      (l.step s).controller.phase = .handling key change ∧
      (l.step s).attempts = ⟨l.time, key, change, none⟩ :: l.attempts) ∨
    (∃ key change succeeded, l.controller.phase = .handling key change ∧
      (l.step s).controller.tracker =
        (if succeeded then l.controller.tracker.done key change else l.controller.tracker) ∧
      (l.step s).controller.phase = .leaving key ∧
      (l.step s).attempts =
        l.attempts.modifyHead fun a => { a with succeeded := some succeeded }) ∨
    (l.step s).controller.tracker = l.controller.tracker ∧
      (∀ key change, (l.step s).controller.phase = .handling key change →
        l.controller.phase = .handling key change) ∧
      (l.step s).attempts = l.attempts := by
  cases s with
  | observe event => exact .inr (.inr ⟨rfl, fun _ _ h => h, rfl⟩)
  | announce =>
    refine .inr (.inr ?_)
    dsimp only [step, note, Controller.step]
    split <;> exact ⟨rfl, fun _ _ h => h, rfl⟩
  | take =>
    refine .inr (.inr ?_)
    dsimp only [step, note, Controller.step]
    split
    · unfold Controller.take
      split
      · exact ⟨rfl, fun _ _ h => (by cases h), rfl⟩
      · exact ⟨rfl, fun _ _ h => h, rfl⟩
      · exact ⟨rfl, fun _ _ h => (by cases h), rfl⟩
    · exact ⟨rfl, fun _ _ h => h, rfl⟩
  | read =>
    rcases hphase : l.controller.phase with _ | key | _ | _ | _
    case taken =>
      rcases hcheck : l.controller.tracker.check key (l.controller.store.get? key) with _ | change
      · -- nothing differs from what was last processed, so the handler is not called
        have hstep : l.step .read =
            ⟨{ l.controller with phase := .leaving key }, l.time + 1, l.attempts⟩ := by
          simp [step, note, Controller.step, Controller.look, hphase, hcheck]
        rw [hstep]
        exact .inr (.inr ⟨rfl, fun _ _ h => (by cases h), rfl⟩)
      · have hstep : l.step .read = ⟨{ l.controller with phase := .handling key change },
            l.time + 1, ⟨l.time, key, change, none⟩ :: l.attempts⟩ := by
          simp [step, note, Controller.step, Controller.look, hphase, hcheck]
        rw [hstep]
        exact .inl ⟨key, change, hcheck, rfl, rfl, rfl⟩
    all_goals
      exact .inr (.inr (by simp [step, note, Controller.step, hphase]))
  | settle succeeded =>
    rcases hphase : l.controller.phase with _ | _ | ⟨key, change⟩ | _ | _
    case handling =>
      obtain ⟨failures, more, hsettle⟩ := Diary.settle_eq l.controller key change succeeded
      have hstep : l.step (.settle succeeded) = ⟨l.controller.settle key change succeeded,
          l.time + 1, l.attempts.modifyHead fun a => { a with succeeded := some succeeded }⟩ := by
        simp [step, note, Controller.step, hphase]
      rw [hstep, hsettle]
      exact .inr (.inl ⟨key, change, succeeded, rfl, rfl, rfl, rfl⟩)
    all_goals
      exact .inr (.inr (by simp [step, note, Controller.step, hphase]))
  | leave =>
    refine .inr (.inr ?_)
    dsimp only [step, note, Controller.step]
    split
    · exact ⟨rfl, fun _ _ h => (by cases h), rfl⟩
    · exact ⟨rfl, fun _ _ h => h, rfl⟩
  | fire r =>
    refine .inr (.inr ?_)
    dsimp only [step, note, Controller.step]
    split <;> exact ⟨rfl, fun _ _ h => h, rfl⟩
  | elapse span => exact .inr (.inr ⟨rfl, fun _ _ h => h, rfl⟩)
  | close => exact .inr (.inr ⟨rfl, fun _ _ h => h, rfl⟩)

/-! ### What the steps keep -/

theorem lastDone_cons (a : Attempt α) (earlier : List (Attempt α)) (key : ObjectKey) :
    Attempt.lastDone (a :: earlier) key =
      if a.key = key ∧ a.succeeded = some true then a.change.new
      else Attempt.lastDone earlier key := by
  unfold Attempt.lastDone
  rw [List.find?_cons]
  split
  · rename_i h
    rw [Bool.and_eq_true, beq_iff_eq, beq_iff_eq] at h
    rw [if_pos h, Option.bind_some]
  · rename_i h
    rw [Bool.and_eq_false_iff, beq_eq_false_iff_ne, beq_eq_false_iff_ne] at h
    rw [if_neg (fun hne => h.elim (· hne.1) (· hne.2))]

/-- Whether the calls so far fit each other, what is remembered and the worker. -/
structure Faithful (l : Logbook α) : Prop where
  remembered : ∀ key, l.controller.tracker.processed.get? key = Attempt.lastDone l.attempts key
  busy : ∀ key change, l.controller.phase = .handling key change →
    ∃ time earlier, l.attempts = ⟨time, key, change, none⟩ :: earlier
  past : ∀ a ∈ l.attempts, a.time < l.time
  follows : ∀ a earlier, a :: earlier <:+ l.attempts → a.Follows earlier

theorem faithful_start (backoff : Backoff) (maxRetries : Nat) :
    (start backoff maxRetries : Logbook α).Faithful where
  remembered _ := rfl
  busy _ _ h := nomatch h
  past _ h := nomatch h
  follows a earlier h := absurd (List.suffix_nil.1 h) (List.cons_ne_nil a earlier)

theorem Faithful.call (h : l.Faithful) {l' : Logbook α}
    (hcheck : l.controller.tracker.check key (l.controller.store.get? key) = some change)
    (htracker : l'.controller.tracker = l.controller.tracker)
    (hphase : l'.controller.phase = .handling key change) (htime : l'.time = l.time + 1)
    (hattempts : l'.attempts = ⟨l.time, key, change, none⟩ :: l.attempts) : l'.Faithful := by
  obtain ⟨hold, hnew⟩ := Tracker.check_eq_some hcheck
  refine ⟨fun key' => ?_, fun key' change' hphase' => ?_, fun a ha => ?_, fun a earlier ha => ?_⟩
  · rw [htracker, hattempts, lastDone_cons, if_neg (by simp)]
    exact h.remembered key'
  · rw [hphase] at hphase'
    obtain ⟨rfl, rfl⟩ := WorkerPhase.handling.inj hphase'
    exact ⟨l.time, l.attempts, hattempts⟩
  · rw [hattempts, List.mem_cons] at ha
    rw [htime]
    rcases ha with rfl | ha
    · exact Nat.lt_succ_self _
    · exact Nat.lt_succ_of_lt (h.past a ha)
  · rw [hattempts, List.suffix_cons_iff] at ha
    rcases ha with ha | ha
    · obtain ⟨rfl, rfl⟩ := List.cons.inj ha
      refine ⟨hold.trans (h.remembered key), ?_, Tracker.kindFits_of_check hcheck, h.past⟩
      dsimp only
      rw [hold, hnew]
      exact Tracker.isSome_check.1 (by rw [hcheck]; rfl)
    · exact h.follows a earlier ha

theorem Faithful.answer (h : l.Faithful) {l' : Logbook α} {succeeded : Bool}
    (hphase : l.controller.phase = .handling key change)
    (htracker : l'.controller.tracker =
      if succeeded then l.controller.tracker.done key change else l.controller.tracker)
    (hphase' : l'.controller.phase = .leaving key) (htime : l'.time = l.time + 1)
    (hattempts : l'.attempts =
      l.attempts.modifyHead fun a => { a with succeeded := some succeeded }) : l'.Faithful := by
  obtain ⟨time, earlier, hbusy⟩ := h.busy key change hphase
  have hremembered := h.remembered
  have hpast := h.past
  have hfollows := h.follows
  rw [hbusy] at hattempts hremembered hpast hfollows
  rw [List.modifyHead_cons] at hattempts
  refine ⟨fun key' => ?_, fun _ _ hphase => ?_, fun a ha => ?_, fun a rest ha => ?_⟩
  · have hkept := hremembered key'
    rw [lastDone_cons, if_neg (by simp)] at hkept
    rw [hattempts, htracker, lastDone_cons]
    cases succeeded with
    | false => rw [if_neg (by simp), if_neg (by simp), hkept]
    | true =>
      by_cases hkey : key = key'
      · subst hkey
        rw [if_pos rfl, if_pos ⟨rfl, rfl⟩, Tracker.get?_done_self]
      · rw [if_pos rfl, if_neg (fun h => hkey h.1), Tracker.get?_done_of_ne _ (Ne.symm hkey), hkept]
  · rw [hphase'] at hphase
    cases hphase
  · rw [hattempts, List.mem_cons] at ha
    rw [htime]
    rcases ha with rfl | ha
    · have hlt := hpast _ List.mem_cons_self
      exact Nat.lt_succ_of_lt hlt
    · exact Nat.lt_succ_of_lt (hpast a (List.mem_cons_of_mem _ ha))
  · rw [hattempts, List.suffix_cons_iff] at ha
    rcases ha with ha | ha
    · -- only the answer of the latest call is new
      obtain ⟨rfl, rfl⟩ := List.cons.inj ha
      obtain ⟨hold, hdiffers, hkind, hlater⟩ := hfollows _ _ List.suffix_rfl
      exact ⟨hold, hdiffers, hkind, hlater⟩
    · exact hfollows a rest (ha.trans (List.suffix_cons _ _))

theorem Faithful.step (h : l.Faithful) (s : ControllerStep α) : (l.step s).Faithful := by
  rcases l.step_cases s with ⟨key, change, hcheck, htracker, hphase, hattempts⟩ |
    ⟨key, change, succeeded, hphase, htracker, hphase', hattempts⟩ |
    ⟨htracker, hphase, hattempts⟩
  · exact h.call hcheck htracker hphase rfl hattempts
  · exact h.answer hphase htracker hphase' rfl hattempts
  · refine ⟨?_, fun key change hbusy => ?_, fun a ha => ?_, ?_⟩
    · rw [htracker, hattempts]
      exact h.remembered
    · rw [hattempts]
      exact h.busy key change (hphase key change hbusy)
    · exact Nat.lt_succ_of_lt (h.past a (hattempts ▸ ha))
    · rw [hattempts]
      exact h.follows

theorem Faithful.run (h : l.Faithful) (steps : List (ControllerStep α)) :
    (l.run steps).Faithful := by
  induction steps generalizing l with
  | nil => exact h
  | cons s rest ih => exact ih (h.step s)

end Logbook

/-! ### The store at each call -/

def ControllerStep.observed? : ControllerStep α → Option (WatchEvent α)
  | .observe event => some event
  | _ => none

namespace Controller

variable {key : ObjectKey} {v : Stored α}

theorem store_step (c : Controller α) {s : ControllerStep α} (hs : s.observed? = none) :
    (c.step s).store = c.store := by
  cases s with
  | observe event => cases hs
  | announce =>
    simp only [Controller.step]
    split <;> rfl
  | take =>
    simp only [Controller.step]
    split
    · unfold take
      split <;> rfl
    · rfl
  | read =>
    simp only [Controller.step]
    split
    · unfold look
      split <;> rfl
    · rfl
  | settle succeeded =>
    simp only [Controller.step]
    split
    · rename_i k change _
      obtain ⟨failures, more, hsettle⟩ := Diary.settle_eq c k change succeeded
      rw [hsettle]
    · rfl
  | leave =>
    simp only [Controller.step]
    split <;> rfl
  | fire r =>
    simp only [Controller.step]
    split <;> rfl
  | elapse span => rfl
  | close => rfl

/-- The store after some steps is what the events among them leave. -/
theorem store_run (c : Controller α) (steps : List (ControllerStep α)) :
    (c.run steps).store = (c.store.ingestAll (steps.filterMap (·.observed?))).1 := by
  induction steps generalizing c with
  | nil => rfl
  | cons s rest ih =>
    refine (ih (c.step s)).trans ?_
    cases hs : s.observed? with
    | none => rw [List.filterMap_cons_none hs, store_step c hs]
    | some event =>
      rw [List.filterMap_cons_some hs]
      cases s <;> cases hs
      rfl

theorem run_append (c : Controller α) (steps more : List (ControllerStep α)) :
    c.run (steps ++ more) = (c.run steps).run more := List.foldl_append

/-- What the store of a controller holds at two times it holds all the time
between them. -/
theorem stored_between (backoff : Backoff) (maxRetries : Nat)
    {steps : List (ControllerStep α)} {first mid last : Nat} (hmid : first ≤ mid)
    (hlast : mid ≤ last)
    (hv : ((start backoff maxRetries).run (steps.take first)).store.get? key = some v)
    (hv' : ((start backoff maxRetries).run (steps.take last)).store.get? key = some v) :
    ((start backoff maxRetries).run (steps.take mid)).store.get? key = some v := by
  obtain ⟨toMid, hmid⟩ := List.take_prefix_take_left hmid (l := steps)
  obtain ⟨toLast, hlast⟩ := List.take_prefix_take_left hlast (l := steps)
  have hsound : ((start backoff maxRetries).run (steps.take first)).store.Sound := by
    rw [store_run]
    exact Store.sound_ingestAll _
  rw [← hlast, ← hmid, run_append, run_append, store_run _ toLast, store_run _ toMid] at hv'
  rw [← hmid, run_append, store_run _ toMid]
  exact hsound.get?_between hv hv'

end Controller

namespace Logbook

/-- Each call brings what the store holds at its time. -/
theorem stored_of_mem (backoff : Backoff) (maxRetries : Nat) (steps : List (ControllerStep α)) :
    ∀ a ∈ ((start backoff maxRetries).run steps).attempts, a.time < steps.length ∧
      a.change.new =
        ((Controller.start backoff maxRetries).run (steps.take a.time)).store.get? a.key := by
  induction steps using List.reverseRecOn with
  | nil => exact fun _ ha => nomatch ha
  | append_singleton steps s ih =>
    have hearlier : ∀ a ∈ ((start backoff maxRetries).run steps).attempts,
        a.time < (steps ++ [s]).length ∧ a.change.new = ((Controller.start backoff maxRetries).run
          ((steps ++ [s]).take a.time)).store.get? a.key := by
      intro a ha
      obtain ⟨hlt, hnew⟩ := ih a ha
      rw [List.take_append_of_le_length (Nat.le_of_lt hlt), List.length_append]
      exact ⟨Nat.lt_add_right _ hlt, hnew⟩
    have htime := run_time (start backoff maxRetries) steps
    have hcontroller := run_controller (start backoff maxRetries) steps
    rw [run_concat]
    generalize (start backoff maxRetries).run steps = l at *
    rcases l.step_cases s with ⟨key, change, hcheck, -, -, hattempts⟩ |
      ⟨key, change, succeeded, -, -, -, hattempts⟩ | ⟨-, -, hattempts⟩ <;> rw [hattempts]
    · refine List.forall_mem_cons.2 ⟨?_, hearlier⟩
      have htime : l.time = steps.length := htime.trans (Nat.zero_add _)
      dsimp only
      rw [htime, List.take_left, List.length_append, (Tracker.check_eq_some hcheck).2, hcontroller]
      exact ⟨Nat.lt_succ_self _, rfl⟩
    · rcases hattempts : l.attempts with _ | ⟨b, rest⟩ <;> rw [hattempts] at hearlier
      · exact hearlier
      · rw [List.modifyHead_cons, List.forall_mem_cons]
        exact List.forall_mem_cons.1 hearlier
    · exact hearlier

/-- In every run, each call for a key starts from the object that the last
successful call for the key brought, and from none if there is none or it was a
removal; it is given two arrivals that are not the same, or only one, and is
named accordingly. It brings what the store holds for the key at the time of the
call, and the store never goes back to an object that it left. -/
theorem attempts_follow (backoff : Backoff) (maxRetries : Nat) (steps : List (ControllerStep α)) :
    let log := (start backoff maxRetries).run steps
    let stored (time : Nat) (key : ObjectKey) : Option (Stored α) :=
      ((Controller.start backoff maxRetries).run (steps.take time)).store.get? key
    log.controller = (Controller.start backoff maxRetries).run steps ∧
    (∀ a earlier, a :: earlier <:+ log.attempts →
      a.Follows earlier ∧ a.time < steps.length ∧ a.change.new = stored a.time a.key) ∧
    ∀ key v first mid last, first ≤ mid → mid ≤ last →
      stored first key = some v → stored last key = some v → stored mid key = some v := by
  intro log stored
  have hfaithful : log.Faithful := (faithful_start backoff maxRetries).run steps
  refine ⟨run_controller _ steps, fun a earlier ha => ⟨hfaithful.follows a earlier ha, ?_⟩, ?_⟩
  · exact stored_of_mem backoff maxRetries steps a (ha.subset List.mem_cons_self)
  · exact fun key v first mid last hmid hlast =>
      Controller.stored_between backoff maxRetries hmid hlast

/-- A namespace is seen and handled, and is gone after that: the removal starts
from what was added. -/
theorem attempts_follow_of_visit :
    let log : Logbook Namespace := (start ⟨100, 1000⟩ 3).run (Diary.visit true)
    ∃ removal addition v, log.attempts = [removal, addition] ∧ addition.change.new = some v ∧
      removal.change.old = some v ∧ removal.change.kind = .deleted := by
  intro log
  obtain ⟨removal, addition, hattempts, hkeys, hkind⟩ : ∃ removal addition,
      log.attempts = [removal, addition] ∧
        Attempt.lastDone [addition] removal.key = addition.change.new ∧
        removal.change.kind = .deleted := ⟨_, _, rfl, rfl, rfl⟩
  obtain ⟨-, hfollows, -⟩ := attempts_follow ⟨100, 1000⟩ 3 (Diary.visit true)
  obtain ⟨hfits, -, -⟩ := hfollows removal [addition] (hattempts ▸ List.suffix_rfl)
  have hthere := hfits.kindFits
  rw [Change.KindFits, hkind] at hthere
  obtain ⟨v, hv⟩ := Option.isSome_iff_exists.1 hthere.1
  exact ⟨removal, addition, v, hattempts, by rw [← hkeys, ← hfits.old, hv], hv, hkind⟩

end Logbook

end PodFirewall
