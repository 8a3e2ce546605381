import PodFirewall.Cluster.Pod
import PodFirewall.Firewall.Site
import PodFirewall.Hash.Xxh3

/-!
One firewall for each group of pods that share a namespace and their labels.
A group comes into being with its first pod. Its firewall outlives the last pod
for a while, because pods of the group may come back.
-/

namespace PodFirewall

/-- A group of pods: those of a namespace with exactly these labels. -/
structure PodGroup where
  namespaceName : String
  labels : Labels
  deriving DecidableEq

namespace PodGroup

open Std

/-- Groups are ordered by namespace, then by labels. -/
instance : Ord PodGroup where
  compare := compareLex (compareOn namespaceName) (compareOn labels)

instance : TransOrd PodGroup :=
  inferInstanceAs (TransCmp (compareLex (compareOn namespaceName) (compareOn labels)))

instance : LawfulEqOrd PodGroup where
  compare_self {_} := ReflOrd.compare_self
  eq_of_compare {a b} h := by
    have h' : (compare a.namespaceName b.namespaceName).then (compare a.labels b.labels) = .eq :=
      h
    obtain ⟨h1, h2⟩ := Ordering.then_eq_eq.1 h'
    have e1 := LawfulEqCmp.eq_of_compare h1
    have e2 := LawfulEqCmp.eq_of_compare h2
    cases a; cases b; cases e1; cases e2; rfl

def text (g : PodGroup) : String :=
  g.namespaceName ++ "\x7b" ++
    ",".intercalate (g.labels.toList.map fun e => e.1 ++ "=" ++ e.2) ++ "\x7d"

/-- The text that stands for a group. -/
def identity (g : PodGroup) : String :=
  g.labels.toList.foldl (fun s e => s ++ "|" ++ e.1 ++ "=" ++ e.2) g.namespaceName

/-- The name of the group's firewall, made of the hash of its identity. -/
def firewallName (g : PodGroup) : String := "fw-" ++ Xxh3.hex16 (Xxh3.hash g.identity.toUTF8)

def ofPod (p : Pod) : PodGroup := ⟨p.namespaceName, p.labels⟩

end PodGroup

structure GroupState where
  firewall : Deployed
  pods : OrdSet ObjectKey
  /-- Since when the group has been without pods, if it is. -/
  idleSince : Option Nat
  /-- Whether all policies of the group have been applied since it began. -/
  synced : Bool

structure Fleet where
  groups : OrdMap PodGroup GroupState
  backend : Backend

/-- What adding a pod to a group came to. -/
structure Membership where
  firewall : String
  created : Bool
  needsSync : Bool

namespace Fleet

def empty (b : Backend) : Fleet := ⟨∅, b⟩

instance : Inhabited Fleet := ⟨empty default⟩

/-- A group that a pod has left; it is idle from now on if that was its last
pod. -/
def leave (now : Nat) (pod : ObjectKey) (g : GroupState) : GroupState :=
  if g.pods.contains pod then
    let pods := g.pods.erase pod
    { g with pods := pods, idleSince := if pods.isEmpty then some now else g.idleSince }
  else g

/-- The groups after a pod left all of them but one. -/
def release (now : Nat) (pod : ObjectKey) (keep : Option PodGroup)
    (groups : OrdMap PodGroup GroupState) : OrdMap PodGroup GroupState :=
  groups.map fun group g => if keep == some group then g else leave now pod g

/-- Puts a pod into its group, and creates the firewall of a new group. The
pod leaves its earlier group in any case. -/
def addPod (f : Fleet) (now : Nat) (group : PodGroup) (pod : ObjectKey) :
    Except FirewallError Membership × Fleet :=
  let groups := release now pod (some group) f.groups
  match groups.get? group with
  | some g =>
    (.ok ⟨g.firewall.name, false, !g.synced⟩,
      { f with groups := groups.insert group { g with pods := g.pods.add pod, idleSince := none } })
  | none =>
    match Site.create f.backend group.firewallName with
    | (.error e, b) => (.error e, ⟨groups, b⟩)
    | (.ok firewall, b) =>
      (.ok ⟨firewall.name, true, true⟩,
        ⟨groups.insert group ⟨firewall, OrdSet.ofMembers [pod], none, false⟩, b⟩)

def removePod (f : Fleet) (now : Nat) (pod : ObjectKey) : Fleet :=
  { f with groups := release now pod none f.groups }

def markSynced (f : Fleet) (group : PodGroup) : Fleet :=
  match f.groups.get? group with
  | some g => { f with groups := f.groups.insert group { g with synced := true } }
  | none => f

def all (f : Fleet) : List (PodGroup × Deployed) :=
  f.groups.toList.map fun e => (e.1, e.2.firewall)

def expired (now timeout : Nat) (g : GroupState) : Bool :=
  match g.idleSince with
  | some since => timeout ≤ now - since
  | none => false

/-- Destroys the firewalls of the given groups; a group whose firewall cannot
be deleted stays. -/
def destroyEach : List (PodGroup × GroupState) → Fleet → List String × Fleet
  | [], f => ([], f)
  | (group, g) :: rest, f =>
    match Site.destroy ⟨g.firewall, f.backend⟩ with
    | (.ok (), s) =>
      match destroyEach rest ⟨f.groups.erase group, s.backend⟩ with
      | (names, f) => (g.firewall.name :: names, f)
    | (.error _, s) => destroyEach rest { f with backend := s.backend }

def destroyIdle (f : Fleet) (now timeout : Nat) : List String × Fleet :=
  destroyEach (f.groups.toList.filter fun e => expired now timeout e.2) f

def site? (f : Fleet) (group : PodGroup) : Option Site :=
  (f.groups.get? group).map fun g => ⟨g.firewall, f.backend⟩

def update (f : Fleet) (group : PodGroup) (s : Site) : Fleet where
  groups :=
    match f.groups.get? group with
    | some g => f.groups.insert group { g with firewall := s.toDeployed }
    | none => f.groups
  backend := s.backend

/-- Works on the firewall of a group. A group that does not exist is left
alone. -/
def onGroup {α : Type} (f : Fleet) (group : PodGroup) (default : α) (op : Site → α × Site) :
    α × Fleet :=
  match f.site? group with
  | none => (default, f)
  | some s =>
    match op s with
    | (a, s) => (a, f.update group s)

end Fleet

end PodFirewall
