import PodFirewall.Kube.Metadata

/-!
The store of one kind of objects, fed by the events of a watch.
Each object that arrives gets a stamp of its own, so that two arrivals can be
told apart even if they say the same. An object that arrives again in the
version that is known changes nothing: the known one, with its stamp, is kept.
-/

namespace PodFirewall

structure Stored (α : Type) where
  /-- The number of the arrival. -/
  stamp : Nat
  object : Kube.Object α

/-- Arrivals are equal if they are the same arrival. -/
instance {α : Type} : BEq (Stored α) := ⟨fun a b => a.stamp == b.stamp⟩

/-- An event of a watch. A listing of all objects runs from `init` to
`initDone`. -/
inductive WatchEvent (α : Type) where
  | init
  | initApply (o : Kube.Object α)
  | initDone
  | apply (o : Kube.Object α)
  | delete (o : Kube.Object α)

structure Store (α : Type) where
  objects : OrdMap ObjectKey (Stored α)
  /-- The objects of the listing under way. -/
  listing : Option (OrdMap ObjectKey (Stored α))
  /-- Whether a listing has ever been completed. -/
  ready : Bool
  next : Nat

namespace Store

variable {α : Type}

def empty : Store α := ⟨∅, none, false, 0⟩

instance : Inhabited (Store α) := ⟨empty⟩

def get? (s : Store α) (key : ObjectKey) : Option (Stored α) := s.objects.get? key

def list (s : Store α) (p : Kube.Object α → Bool) : List (Stored α) :=
  s.objects.values.filter fun v => p v.object

/-- Whether two objects are known to be the same version of one object. -/
def sameVersion (a b : Stored α) : Bool :=
  a.object.metadata.version.isSome && a.object.metadata.version == b.object.metadata.version

/-- The object of a listing that takes its place in the store: the known one,
if the version is the same. -/
def settle (s : Store α) (key : ObjectKey) (v : Stored α) : Stored α :=
  match s.objects.get? key with
  | some known => if sameVersion known v then known else v
  | none => v

def isNews (s : Store α) (key : ObjectKey) (v : Stored α) : Bool :=
  match s.objects.get? key with
  | some known => !sameVersion known v
  | none => true

/-- The store after a listing, and the keys of what it changed: first those
listed anew, then those listed no more. -/
def completeListing (s : Store α) : Store α × List ObjectKey :=
  let listed := s.listing.getD ∅
  let news := (listed.filter s.isNews).keys
  let gone := s.objects.keys.filter fun key => !listed.contains key
  ({ s with objects := listed.map s.settle, listing := none, ready := true }, news ++ gone)

/-- The store after an event, and the keys of the objects that it changed.
Objects without a name are passed over. -/
def ingest (s : Store α) : WatchEvent α → Store α × List ObjectKey
  | .init => ({ s with listing := some ∅ }, [])
  | .initApply o =>
    match o.metadata.key? with
    | none => (s, [])
    | some key =>
      ({ s with
          listing := some ((s.listing.getD ∅).insert key ⟨s.next, o⟩)
          next := s.next + 1 }, [])
  | .initDone => s.completeListing
  | .apply o =>
    match o.metadata.key? with
    | none => (s, [])
    | some key =>
      if s.isNews key ⟨s.next, o⟩ then
        ({ s with objects := s.objects.insert key ⟨s.next, o⟩, next := s.next + 1 }, [key])
      else (s, [])
  | .delete o =>
    match o.metadata.key? with
    | none => (s, [])
    | some key =>
      if s.objects.contains key then ({ s with objects := s.objects.erase key }, [key])
      else (s, [])

def listingOf (objects : List (Kube.Object α)) : List (WatchEvent α) :=
  .init :: objects.map .initApply ++ [.initDone]

def ingestAll (s : Store α) : List (WatchEvent α) → Store α × List ObjectKey
  | [] => (s, [])
  | e :: rest =>
    let (s, changed) := s.ingest e
    let (s, more) := s.ingestAll rest
    (s, changed ++ more)

def ofListing (objects : List (Kube.Object α)) : Store α :=
  (empty.ingestAll (listingOf objects)).1

end Store

end PodFirewall
