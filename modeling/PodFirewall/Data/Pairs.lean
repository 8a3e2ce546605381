import PodFirewall.Rule.Basic

/-!
Values that come in twos: one for each direction, or one for each chain.
-/

namespace PodFirewall

universe u

/-- One value for each direction. -/
structure PerDirection (α : Type u) where
  incoming : α
  outgoing : α
  deriving DecidableEq

namespace PerDirection

variable {α : Type u}

def get (p : PerDirection α) : Direction → α
  | .incoming => p.incoming
  | .outgoing => p.outgoing

def set (p : PerDirection α) (d : Direction) (v : α) : PerDirection α :=
  match d with
  | .incoming => { p with incoming := v }
  | .outgoing => { p with outgoing := v }

def modify (p : PerDirection α) (d : Direction) (f : α → α) : PerDirection α :=
  p.set d (f (p.get d))

def map (p : PerDirection α) (f : α → α) : PerDirection α := ⟨f p.incoming, f p.outgoing⟩

@[simp] theorem get_set_self (p : PerDirection α) (d : Direction) (v : α) :
    (p.set d v).get d = v := by cases d <;> rfl

theorem get_set_of_ne (p : PerDirection α) {d d' : Direction} (v : α) (h : d' ≠ d) :
    (p.set d v).get d' = p.get d' := by cases d <;> cases d' <;> first | rfl | exact absurd rfl h

@[simp] theorem set_set (p : PerDirection α) (d : Direction) (v w : α) :
    (p.set d v).set d w = p.set d w := by cases d <;> rfl

@[simp] theorem set_get_self (p : PerDirection α) (d : Direction) : p.set d (p.get d) = p := by
  cases d <;> rfl

@[simp] theorem get_map (p : PerDirection α) (d : Direction) (f : α → α) :
    (p.map f).get d = f (p.get d) := by cases d <;> rfl

@[simp] theorem get_modify_self (p : PerDirection α) (d : Direction) (f : α → α) :
    (p.modify d f).get d = f (p.get d) := get_set_self ..

theorem get_modify_of_ne (p : PerDirection α) {d d' : Direction} (f : α → α) (h : d' ≠ d) :
    (p.modify d f).get d' = p.get d' := get_set_of_ne _ _ h

theorem ext_get {p q : PerDirection α} (h : ∀ d, p.get d = q.get d) : p = q := by
  cases p
  cases q
  exact (mk.injEq ..).mpr ⟨h .incoming, h .outgoing⟩

end PerDirection

structure PerChain (α : Type u) where
  ingress : α
  egress : α
  deriving DecidableEq

namespace PerChain

variable {α : Type u}

def get (p : PerChain α) : Chain → α
  | .ingress => p.ingress
  | .egress => p.egress

def set (p : PerChain α) (c : Chain) (v : α) : PerChain α :=
  match c with
  | .ingress => { p with ingress := v }
  | .egress => { p with egress := v }

@[simp] theorem get_set_self (p : PerChain α) (c : Chain) (v : α) :
    (p.set c v).get c = v := by cases c <;> rfl

theorem get_set_of_ne (p : PerChain α) {c c' : Chain} (v : α) (h : c' ≠ c) :
    (p.set c v).get c' = p.get c' := by cases c <;> cases c' <;> first | rfl | exact absurd rfl h

end PerChain

end PodFirewall
