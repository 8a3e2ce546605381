import PodFirewall.Data.OrdMap

/-!
Changes of objects, and the memory of what has been processed.
A worker is told no more than that something about a key may have changed; the
tracker turns this into the difference between what was last processed and
what there is now.
-/

namespace PodFirewall

inductive ChangeKind where
  | added
  | updated
  | deleted
  deriving DecidableEq

namespace ChangeKind

def name : ChangeKind → String
  | added => "added"
  | updated => "updated"
  | deleted => "deleted"

end ChangeKind

/-- A change of one object. A deleted object is still known as the old one. -/
structure Change (α : Type) where
  kind : ChangeKind
  new : Option α
  old : Option α

namespace Change

variable {α : Type}

/-- The change from one state of an object to another, if they differ. -/
def between? [BEq α] (old new : Option α) : Option (Change α) :=
  match old, new with
  | none, none => none
  | none, some n => some ⟨.added, some n, none⟩
  | some o, none => some ⟨.deleted, none, some o⟩
  | some o, some n => if o == n then none else some ⟨.updated, some n, some o⟩

end Change

/-- What was last processed of each key. -/
structure Tracker (κ α : Type) [Ord κ] where
  processed : OrdMap κ α

namespace Tracker

variable {κ α : Type} [Ord κ]

def empty : Tracker κ α := ⟨∅⟩

instance : Inhabited (Tracker κ α) := ⟨empty⟩

def check [BEq α] (t : Tracker κ α) (key : κ) (current : Option α) : Option (Change α) :=
  Change.between? (t.processed.get? key) current

def done [Std.TransOrd κ] (t : Tracker κ α) (key : κ) (change : Change α) : Tracker κ α :=
  match change.new with
  | some v => ⟨t.processed.insert key v⟩
  | none => ⟨t.processed.erase key⟩

end Tracker

end PodFirewall
