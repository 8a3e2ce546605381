import PodFirewall.Queue.Retry
import PodFirewall.Watch.Change
import PodFirewall.Watch.Store

/-!
The life of one kind of objects, in steps that can come in any order.
A watch feeds the store and queues the keys of what changed. One worker takes
a key, reads the store, hands the difference from what it last processed to a
handler, and then records the success, asks for a retry or gives the change
up. A step that does not apply leaves everything as it is.
-/

namespace PodFirewall

inductive WorkerPhase (α : Type) where
  | idle
  /-- The worker has a key and has not looked at the object yet. -/
  | taken (key : ObjectKey)
  | handling (key : ObjectKey) (change : Change (Stored α))
  /-- The worker is about to return the key. -/
  | leaving (key : ObjectKey)
  | stopped

structure Controller (α : Type) where
  backoff : Backoff
  maxRetries : Nat
  now : Nat
  store : Store α
  /-- The keys that the store reported and that are not queued yet. -/
  reported : List ObjectKey
  work : RetryQueue ObjectKey
  tracker : Tracker ObjectKey (Stored α)
  phase : WorkerPhase α

inductive ControllerStep (α : Type) where
  | observe (event : WatchEvent α)
  /-- The first key that was reported is queued. -/
  | announce
  | take
  | read
  /-- The handler has ended. -/
  | settle (succeeded : Bool)
  | leave
  /-- A pending retry adds its key. -/
  | fire (r : Retry ObjectKey)
  | elapse (span : Nat)
  | close

namespace Controller

variable {α : Type}

def start (backoff : Backoff) (maxRetries : Nat) : Controller α where
  backoff := backoff
  maxRetries := maxRetries
  now := 0
  store := .empty
  reported := []
  work := .empty
  tracker := .empty
  phase := .idle

/-- Changes the queue and leaves the pending retries alone. -/
def onQueue (c : Controller α) (f : Queue ObjectKey → Queue ObjectKey) : Controller α :=
  { c with work := { c.work with queue := f c.work.queue } }

/-- The worker asks for a key. It ends when there will be none, and nothing is
retried any more. -/
def take (c : Controller α) : Controller α :=
  match c.work.queue.get with
  | (.key key, queue) => { c with work := { c.work with queue }, phase := .taken key }
  | (.wait, _) => c
  | (.stop, queue) => { c with work := ⟨queue, []⟩, phase := .stopped }

/-- The worker compares the object of its key with what it last processed. -/
def look (c : Controller α) (key : ObjectKey) : Controller α :=
  match c.tracker.check key (c.store.get? key) with
  | some change => { c with phase := .handling key change }
  | none => { c with phase := .leaving key }

/-- The handler has ended. A change that failed is retried, as long as the key
has retries left, and else given up. -/
def settle (c : Controller α) (key : ObjectKey) (change : Change (Stored α))
    (succeeded : Bool) : Controller α :=
  let c := { c with phase := .leaving key }
  if succeeded then
    { c with tracker := c.tracker.done key change }.onQueue (·.forget key)
  else if c.work.queue.failuresOf key < c.maxRetries then
    { c with work := c.work.retry c.backoff c.now key }
  else c.onQueue (·.forget key)

def step (c : Controller α) : ControllerStep α → Controller α
  | .observe event =>
    let (store, changed) := c.store.ingest event
    { c with store, reported := c.reported ++ changed }
  | .announce =>
    match c.reported with
    | key :: rest => { c with reported := rest }.onQueue (·.add key)
    | [] => c
  | .take =>
    match c.phase with
    | .idle => c.take
    | _ => c
  | .read =>
    match c.phase with
    | .taken key => c.look key
    | _ => c
  | .settle succeeded =>
    match c.phase with
    | .handling key change => c.settle key change succeeded
    | _ => c
  | .leave =>
    match c.phase with
    | .leaving key => { c with phase := .idle }.onQueue (·.done key)
    | _ => c
  | .fire r => if r ∈ c.work.pending then { c with work := c.work.fire r } else c
  | .elapse span => { c with now := c.now + span }
  | .close => c.onQueue Queue.close

def run (c : Controller α) (steps : List (ControllerStep α)) : Controller α :=
  steps.foldl step c

/-- Takes in an event and queues all keys that it changed, which are also
returned. -/
def watch (c : Controller α) (event : WatchEvent α) : Controller α × List ObjectKey :=
  let (store, changed) := c.store.ingest event
  ({ c with store }.onQueue (·.addAll changed), changed)

def watchAll (c : Controller α) : List (WatchEvent α) → Controller α × List ObjectKey
  | [] => (c, [])
  | e :: rest =>
    let (c, changed) := c.watch e
    let (c, more) := c.watchAll rest
    (c, changed ++ more)

end Controller

end PodFirewall
