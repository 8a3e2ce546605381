import PodFirewall.Policy.Record

/-!
The order in which records are evaluated, and the default action behind them.
Records are ordered by the priority of their parent, then by its age, then by
its name, then by their place in it. A parent without a creation time counts
as older than all others.
-/

namespace PodFirewall

/-- The place of a record in the order of evaluation. -/
structure OrderKey where
  parentPriority : Int
  created : Option Timestamp
  parent : String
  priority : Int
  deriving DecidableEq

namespace OrderKey

open Std

/-- The fields one after the other, the first difference decides. -/
def cmp : OrderKey → OrderKey → Ordering :=
  compareLex (compareOn parentPriority)
    (compareLex (compareOn created) (compareLex (compareOn parent) (compareOn priority)))

instance : Ord OrderKey := ⟨cmp⟩

instance : TransOrd OrderKey :=
  inferInstanceAs (TransCmp (compareLex (compareOn parentPriority)
    (compareLex (compareOn created) (compareLex (compareOn parent) (compareOn priority)))))

instance : LawfulEqOrd OrderKey where
  compare_self {_} := ReflOrd.compare_self
  eq_of_compare {a b} h := by
    have h' : (compare a.parentPriority b.parentPriority).then
        ((compare a.created b.created).then
          ((compare a.parent b.parent).then (compare a.priority b.priority))) = .eq := h
    obtain ⟨h1, h'⟩ := Ordering.then_eq_eq.1 h'
    obtain ⟨h2, h'⟩ := Ordering.then_eq_eq.1 h'
    obtain ⟨h3, h4⟩ := Ordering.then_eq_eq.1 h'
    have e1 := LawfulEqCmp.eq_of_compare h1
    have e2 := LawfulEqCmp.eq_of_compare h2
    have e3 := LawfulEqCmp.eq_of_compare h3
    have e4 := LawfulEqCmp.eq_of_compare h4
    cases a; cases b; cases e1; cases e2; cases e3; cases e4; rfl

def le (a b : OrderKey) : Bool := (compare a b).isLE

/-- The number of keys of a sorted list that come before a new one. Keys equal
to the new one come before it. -/
def offset (key : OrderKey) (sorted : List OrderKey) : Nat :=
  (sorted.takeWhile fun k => k.le key).length

end OrderKey

namespace Record

def orderKey (r : Record) : OrderKey where
  parentPriority := r.parent.priority
  created := r.created
  parent := r.parent.dialect.name ++ ":" ++ r.parent.name
  priority := r.priority

end Record

/-- What happens to the packets of a direction that no rule matches: they are
dropped if a record of the direction applies. -/
def defaultAction (direction : Direction) (applied : List Direction) : RuleAction :=
  if applied.contains direction then .drop else .forward

end PodFirewall
