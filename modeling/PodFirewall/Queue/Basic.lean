import PodFirewall.Data.OrdMap

/-!
A queue of keys that never holds a key twice and never hands out a key that is
still being processed. A key that is added while it is being processed is
remembered and queued as soon as its processing ends.
-/

namespace PodFirewall

structure Queue (κ : Type) [Ord κ] where
  /-- The keys that can be handed out, the next one first. -/
  queued : List κ
  /-- The keys that are queued, or will be once their processing ends. -/
  dirty : OrdSet κ
  /-- The keys that are handed out. -/
  processing : OrdSet κ
  /-- How often each key has failed since it was last forgotten. -/
  failures : OrdMap κ Nat
  closed : Bool

inductive Offer (κ : Type) where
  | key (k : κ)
  /-- There is nothing to do now. -/
  | wait
  /-- There will be nothing to do any more. -/
  | stop

namespace Queue

variable {κ : Type} [Ord κ]

def empty : Queue κ := ⟨[], ∅, ∅, ∅, false⟩

instance : Inhabited (Queue κ) := ⟨empty⟩

def size (q : Queue κ) : Nat := q.queued.length

def failuresOf (q : Queue κ) (key : κ) : Nat := (q.failures.get? key).getD 0

variable [Std.TransOrd κ]

/-- Adds a key, unless the queue is closed or knows already that the key is to
be processed. -/
def add (q : Queue κ) (key : κ) : Queue κ :=
  if q.closed || q.dirty.contains key then q
  else
    let q := { q with dirty := q.dirty.add key }
    -- a key that is handed out is queued when it is returned
    if q.processing.contains key then q else { q with queued := q.queued ++ [key] }

def addAll (q : Queue κ) (keys : List κ) : Queue κ := keys.foldl add q

def get (q : Queue κ) : Offer κ × Queue κ :=
  match q.queued with
  | key :: rest =>
    (.key key,
      { q with
          queued := rest
          dirty := q.dirty.erase key
          processing := q.processing.add key })
  | [] => (if q.closed then .stop else .wait, q)

def done (q : Queue κ) (key : κ) : Queue κ :=
  let q := { q with processing := q.processing.erase key }
  if q.dirty.contains key then { q with queued := q.queued ++ [key] } else q

def fail (q : Queue κ) (key : κ) : Queue κ :=
  { q with failures := q.failures.insert key (q.failuresOf key + 1) }

def forget (q : Queue κ) (key : κ) : Queue κ :=
  { q with failures := q.failures.erase key }

def close (q : Queue κ) : Queue κ := { q with closed := true }

end Queue

end PodFirewall
