import PodFirewall.Controller.Basic

/-!
A controller at work with a handler that follows a script: each key fails some
number of times, and each call takes the same time. Time goes by only when
somebody waits, so a whole run is one computation.
-/

namespace PodFirewall

structure HandlerCall where
  time : Nat
  key : ObjectKey
  kind : ChangeKind
  old : Option String
  new : Option String
  succeeded : Bool

/-- A controller with a scripted handler. -/
structure Rehearsal (α : Type) where
  controller : Controller α
  /-- How often the handler will still fail, by the text of the key. -/
  failures : OrdMap String Nat
  duration : Nat
  /-- When the call under way ends, and how. -/
  ending : Nat × Bool
  /-- The calls of the handler, the latest first. -/
  log : List HandlerCall

namespace Rehearsal

variable {α : Type}

def start (controller : Controller α) (failures : OrdMap String Nat) (duration : Nat) :
    Rehearsal α where
  controller := controller
  failures := failures
  duration := duration
  ending := (0, true)
  log := []

def step (r : Rehearsal α) (s : ControllerStep α) : Rehearsal α :=
  { r with controller := r.controller.step s }

/-- Lets time go by until some moment, if it has not come yet. -/
def advanceTo (r : Rehearsal α) (time : Nat) : Rehearsal α :=
  r.step (.elapse (time - r.controller.now))

def call (r : Rehearsal α) (key : ObjectKey) (change : Change (Stored α)) : Rehearsal α :=
  let left := (r.failures.get? key.text).getD 0
  let now := r.controller.now
  let version (s : Option (Stored α)) : Option String := s.bind (·.object.metadata.version)
  { r with
      failures := r.failures.insert key.text (left - 1)
      ending := (now + r.duration, left == 0)
      log :=
        ⟨now, key, change.kind, version change.old, version change.new, left == 0⟩ :: r.log }

/-- Whether a moment comes no later than a limit. No limit means any time. -/
def within (time : Nat) (limit : Option Nat) : Bool := limit.all (time ≤ ·)

def nextRetry? (r : Rehearsal α) (limit : Option Nat) : Option (Retry ObjectKey) :=
  r.controller.work.agenda.head?.filter fun retry => within retry.due limit

def fire (r : Rehearsal α) (retry : Retry ObjectKey) : Rehearsal α :=
  (r.advanceTo retry.due).step (.fire retry)

def next? (r : Rehearsal α) (limit : Option Nat) : Option (Rehearsal α) :=
  match r.controller.phase with
  | .idle =>
    match r.controller.work.queue.get.1 with
    | .wait => (r.nextRetry? limit).map r.fire
    | _ => some (r.step .take)
  | .taken _ =>
    let r := r.step .read
    match r.controller.phase with
    | .handling key change => some (r.call key change)
    | _ => some r
  | .handling _ _ =>
    let (time, succeeded) := r.ending
    match r.nextRetry? limit with
    | some retry =>
      -- the call ends before a retry that is due at the same moment
      if retry.due < time then some (r.fire retry)
      else some ((r.advanceTo time).step (.settle succeeded))
    | none =>
      if within time limit then some ((r.advanceTo time).step (.settle succeeded)) else none
  | .leaving _ => some (r.step .leave)
  | .stopped => none

def repeatNext (limit : Option Nat) : Nat → Rehearsal α → Rehearsal α
  | 0, r => r
  | n + 1, r =>
    match r.next? limit with
    | some r => repeatNext limit n r
    | none => r

/-- No more things than this can happen without an event from outside. Each
key that is queued, held back, handed out or pending is taken once more at
most, and once again for each failure that is left; to take a key is at most
six things. -/
def bound (r : Rehearsal α) : Nat :=
  let queue := r.controller.work.queue
  let keys := queue.queued.length + queue.dirty.size + queue.processing.size
  let failures := r.failures.values.foldl (· + ·) 0
  6 * (keys + r.controller.work.pending.length + failures + 2)

def runUntil (r : Rehearsal α) (limit : Option Nat) : Rehearsal α :=
  repeatNext limit r.bound r

def wait (r : Rehearsal α) (span : Nat) : Rehearsal α :=
  let limit := r.controller.now + span
  (r.runUntil (some limit)).advanceTo limit

def finish (r : Rehearsal α) : Rehearsal α := r.runUntil none

end Rehearsal

end PodFirewall
