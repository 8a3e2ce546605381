import PodFirewall.Queue.Backoff
import PodFirewall.Queue.Basic

/-!
A queue together with the keys that will be added to it again later.
The time is in milliseconds and given from outside.
-/

namespace PodFirewall

/-- A key that is to be added to a queue again at some time. -/
structure Retry (κ : Type) where
  due : Nat
  key : κ
  deriving DecidableEq

structure RetryQueue (κ : Type) [Ord κ] where
  queue : Queue κ
  /-- The pending retries, the one that was asked for first coming first. -/
  pending : List (Retry κ)

namespace RetryQueue

variable {κ : Type} [Ord κ]

def empty : RetryQueue κ := ⟨.empty, []⟩

instance : Inhabited (RetryQueue κ) := ⟨empty⟩

/-- The pending retries, the one that is due first coming first. -/
def agenda (q : RetryQueue κ) : List (Retry κ) :=
  q.pending.mergeSort fun a b => a.due ≤ b.due

def dueBy (q : RetryQueue κ) (time : Nat) : List (Retry κ) :=
  q.agenda.filter fun r => r.due ≤ time

variable [Std.TransOrd κ]

/-- Counts a failure of a key and lets the key be added again after the delay
that its earlier failures call for. -/
def retry (q : RetryQueue κ) (backoff : Backoff) (now : Nat) (key : κ) : RetryQueue κ where
  queue := q.queue.fail key
  pending := q.pending ++ [⟨now + backoff.delay (q.queue.failuresOf key), key⟩]

def fire [DecidableEq κ] (q : RetryQueue κ) (r : Retry κ) : RetryQueue κ where
  queue := q.queue.add r.key
  pending := q.pending.erase r

/-- What a worker gets that asks anew after each of some retries until there
is an answer, with the time of the answer. -/
def getAlong [DecidableEq κ] (q : RetryQueue κ) (now limit : Nat) :
    List (Retry κ) → Offer κ × RetryQueue κ × Nat
  | [] =>
    match q.queue.get with
    | (.wait, _) => (.wait, q, limit)
    | (offer, queue) => (offer, { q with queue }, now)
  | r :: rest =>
    match q.queue.get with
    | (.wait, _) => (q.fire r).getAlong (Nat.max now r.due) limit rest
    | (offer, queue) => (offer, { q with queue }, now)

/-- What a worker gets that waits for at most some time, and when. -/
def getWithin [DecidableEq κ] (q : RetryQueue κ) (now span : Nat) :
    Offer κ × RetryQueue κ × Nat :=
  q.getAlong now (now + span) (q.dueBy (now + span))

def elapse [DecidableEq κ] (q : RetryQueue κ) (time : Nat) : RetryQueue κ :=
  (q.dueBy time).foldl fire q

end RetryQueue

end PodFirewall
