import PodFirewall.Backend.Basic
import PodFirewall.Firewall.Ledger

/-!
A firewall that is kept in step with the records applied to it.
Every change goes through the ledger. Rules can only be appended to a chain, so
to put a record at its place all records behind it are taken out and appended
again; if a record only loses rules, just those are deleted. Deletions fail one
by one, and what is left over stays recorded.
-/

namespace PodFirewall

inductive FirewallError where
  /-- The firewall was deleted by somebody else. -/
  | gone (name : String)
  | backend (e : BackendError)
  /-- Some rules of a record could not be removed. -/
  | leftovers (record : String) (count : Nat)
  deriving DecidableEq

namespace FirewallError

def message : FirewallError → String
  | gone name => "firewall " ++ name ++ " does not exist anymore"
  | backend e => e.message
  | leftovers record count => record ++ ": " ++ toString count ++ " rules could not be removed"

end FirewallError

/-- A firewall as its keeper knows it. -/
structure Deployed where
  name : String
  ledger : Ledger

/-- A firewall together with the service it lives in. -/
structure Site extends Deployed where
  backend : Backend

abbrev Outcome := Except FirewallError Unit

namespace Outcome

/-- The first failure of two operations. -/
def both (a b : Outcome) : Outcome :=
  match a with
  | .ok () => b
  | .error e => .error e

/-- The failure of the later of two operations, or that of the earlier. -/
def later (a b : Outcome) : Outcome :=
  match b with
  | .ok () => a
  | .error e => .error e

end Outcome

namespace Rule

/-- A rule put into a list that descends by id, before its equals. -/
def insertDown (r : Rule) : List Rule → List Rule
  | [] => [r]
  | x :: rest => if x.id ≤ r.id then r :: x :: rest else x :: insertDown r rest

/-- The rules with the highest id first; equal ids keep their order. -/
def sortDown : List Rule → List Rule
  | [] => []
  | r :: rest => insertDown r (sortDown rest)

end Rule

namespace Site

/-! ### Creating and destroying -/

/-- Deletes all rules of a chain, from the last to the first. -/
def clearChain (b : Backend) (name : String) (c : Chain) : Except BackendError Unit × Backend :=
  match b.read name c with
  | (.error e, b) => (.error e, b)
  | (.ok listing, b) =>
    let rules := Rule.sortDown (listing.filter fun r => !r.isDefault)
    b.performAll name (rules.map fun r => .delete c r.id)

def clearChains (b : Backend) (name : String) : List Chain → Except BackendError Unit × Backend
  | [] => (.ok (), b)
  | c :: rest =>
    match clearChain b name c with
    | (.ok (), b) => clearChains b name rest
    | (.error e, b) => (.error e, b)

def prepare (b : Backend) (name : String) : Except BackendError Unit × Backend :=
  match b.find name with
  | (.error e, b) => (.error e, b)
  | (.ok true, b) => clearChains b name Chain.all
  | (.ok false, b) => b.perform name .create

/-- Creates a firewall, or empties the one that exists, with both default
actions set to forward. -/
def create (b : Backend) (name : String) : Except FirewallError Deployed × Backend :=
  match prepare b name with
  | (.error e, b) => (.error (.backend e), b)
  | (.ok (), b) =>
    match b.performAll name (Chain.all.flatMap fun c => [.setDefault c .forward, .commit c]) with
    | (.error e, b) => (.error (.backend e), b)
    | (.ok (), b) =>
      (.ok ⟨name, { Ledger.empty with defaults := ⟨some .forward, some .forward⟩ }⟩, b)

def destroy (s : Site) : Outcome × Site :=
  match s.backend.perform s.name .destroy with
  | (.ok (), b) => (.ok (), { s with backend := b, ledger := Ledger.empty })
  | (.error e, b) => (.error (.backend e), { s with backend := b })

def checkAlive (s : Site) : Outcome × Site :=
  match s.backend.find s.name with
  | (.ok true, b) => (.ok (), { s with backend := b })
  | (.ok false, b) => (.error (.gone s.name), { s with backend := b })
  | (.error e, b) => (.error (.backend e), { s with backend := b })

/-! ### Adding and removing rules -/

/-- Appends rules to the chain of a direction; they are returned with the
numbers they got. A commit that fails does not undo this. -/
def inject (s : Site) (d : Direction) (rules : List Rule) :
    Except BackendError (List Rule) × Site :=
  if rules.isEmpty then (.ok [], s)
  else
    match s.backend.read s.name d.chain with
    | (.error e, b) => (.error e, { s with backend := b })
    | (.ok listing, b) =>
      let numbered := Rule.numberFrom (Rule.nextId listing) rules
      match b.perform s.name (.append d.chain numbered) with
      | (.error e, b) => (.error e, { s with backend := b })
      | (.ok (), b) => (.ok numbered, { s with backend := (b.perform s.name (.commit d.chain)).2 })

/-- Rules left over from deleting, with the numbers they have now; and whether
any rule was deleted. -/
structure Deletion where
  /-- In ascending order. -/
  failed : List Rule
  any : Bool

def deleteEach (d : Direction) : List Rule → Deletion → Site → Deletion × Site
  | [], out, s => (out, s)
  | r :: rest, out, s =>
    match s.backend.perform s.name (.delete d.chain r.id) with
    | (.error _, b) =>
      deleteEach d rest { out with failed := r :: out.failed } { s with backend := b }
    | (.ok (), b) =>
      -- the rules that failed before stand behind this one, so they move up
      deleteEach d rest ⟨out.failed.map (Rule.shift r.id), true⟩
        { s with backend := b, ledger := s.ledger.deleted d r.id }

/-- Removes rules from the chain of a direction, the last first, and returns
those that are left. -/
def remove (s : Site) (d : Direction) (rules : List Rule) : List Rule × Site :=
  if rules.isEmpty then ([], s)
  else
    match deleteEach d (Rule.sortDown rules) ⟨[], false⟩ s with
    | (out, s) =>
      if out.any then
        (out.failed, { s with backend := (s.backend.perform s.name (.commit d.chain)).2 })
      else (out.failed, s)

/-- Removes all rules of a name, those for incoming traffic first. -/
def ceaseRules (s : Site) (name : String) : Outcome × Site :=
  match s.ledger.rules.get? name with
  | none => (.ok (), s)
  | some known =>
    match s.remove .incoming known.incoming with
    | (left, s) =>
      match s.remove .outgoing known.outgoing with
      | (left', s) =>
        let count := left.length + left'.length
        (if count = 0 then .ok () else .error (.leftovers name count), s)

/-- Removes the rules of several names. The last failure counts. -/
def ceaseEach : List String → Outcome → Site → Outcome × Site
  | [], out, s => (out, s)
  | name :: rest, out, s =>
    match s.ceaseRules name with
    | (result, s) => ceaseEach rest (out.later result) s

/-- Sets the default action of a direction, unless it is known to be set. -/
def updateDefault (s : Site) (d : Direction) : Outcome × Site :=
  let action := defaultAction d s.ledger.restricted
  if s.ledger.defaults.get d = some action then (.ok (), s)
  else
    match s.backend.performAll s.name [.setDefault d.chain action, .commit d.chain] with
    | (.ok (), b) =>
      (.ok (), { s with
        backend := b
        ledger := { s.ledger with defaults := s.ledger.defaults.set d (some action) } })
    | (.error e, b) => (.error (.backend e), { s with backend := b })

/-- Sets both default actions. The last failure counts. -/
def updateDefaults (s : Site) : Outcome × Site :=
  match s.updateDefault .incoming with
  | (first, s) =>
    match s.updateDefault .outgoing with
    | (second, s) => (first.later second, s)

/-! ### Operations -/

/-- Appends rules in both directions under a name, next to those it may have
already. The directions fail on their own. -/
def enforce (s : Site) (name : String) (rules : PerDirection (List Rule)) :
    Except FirewallError (PerDirection (Except BackendError Unit)) × Site :=
  match s.checkAlive with
  | (.error e, s) => (.error e, s)
  | (.ok (), s) =>
    match s.inject .incoming rules.incoming with
    | (incoming, s) =>
      match s.inject .outgoing rules.outgoing with
      | (outgoing, s) =>
        let ledger :=
          match incoming with
          | .ok added => s.ledger.record name .incoming added
          | .error _ => s.ledger
        let ledger :=
          match outgoing with
          | .ok added => ledger.record name .outgoing added
          | .error _ => ledger
        (.ok ⟨incoming.map fun _ => (), outgoing.map fun _ => ()⟩, { s with ledger := ledger })

/-- Removes all rules of a record. Those that cannot be deleted stay
recorded. -/
def cease (s : Site) (name : String) : Outcome × Site :=
  match s.checkAlive with
  | (.error e, s) => (.error e, s)
  | (.ok (), s) =>
    match ceaseRules { s with ledger := s.ledger.retire (· == name) } name with
    | (ceased, s) =>
      match s.updateDefaults with
      | (defaults, s) => (ceased.both defaults, s)

def ceaseParent (s : Site) (dialect : Dialect) (parent : String) : Outcome × Site :=
  match s.checkAlive with
  | (.error e, s) => (.error e, s)
  | (.ok (), s) =>
    let ledger := s.ledger.retire (Record.belongsTo dialect parent)
    let names := ledger.rules.keys.filter (Record.belongsTo dialect parent)
    match ceaseEach names (.ok ()) { s with ledger := ledger } with
    | (ceased, s) =>
      match s.updateDefaults with
      | (defaults, s) => (ceased.both defaults, s)

/-- Appends the rules of applied records, up to the first failure. -/
def injectEach (d : Direction) : List Applied → Site → Outcome × Site
  | [], s => (.ok (), s)
  | a :: rest, s =>
    match s.inject d a.rules with
    | (.error e, s) => (.error (.backend e), s)
    | (.ok added, s) =>
      injectEach d rest { s with ledger := s.ledger.record a.record.name d added }

/-- Takes the records of a direction from a place on out of the chain, and
appends them again unless something was left over. -/
def resplice (s : Site) (d : Direction) (start : Nat) : Outcome × Site :=
  let tail := (s.ledger.applied.get d).drop start
  match ceaseEach (tail.map (·.record.name)) (.ok ()) s with
  | (.error e, s) => (.error e, s)
  | (.ok (), s) => injectEach d tail s

/-- Gives a record in its place fewer rules: just those that went are
deleted. -/
def shrink (s : Site) (index : Nat) (record : Record) (rules : List Rule) : Outcome × Site :=
  let d := record.direction
  let stale := (s.ledger.recorded record.name d).filter fun r =>
    !rules.any fun n => n.sameMatch r
  let applied := s.ledger.applied.modify d fun entries => entries.set index ⟨record, rules⟩
  let s := { s with ledger := { s.ledger with applied := applied } }
  match s.remove d stale with
  | (left, s) =>
    (if left.isEmpty then .ok () else .error (.leftovers record.name left.length), s)

/-- Where a record among the applied ones of its direction must go, and the
place from which on the chain must be built anew. -/
structure Placement where
  entries : List Applied
  start : Nat

/-- The placement of a record: any older version of it is taken out, and it is
put behind all records that come before it. -/
def place (entries : List Applied) (record : Record) (rules : List Rule) : Placement :=
  match entries.findIdx? fun a => a.record.name == record.name with
  | some i =>
    let rest := entries.eraseIdx i
    let at' := record.orderKey.offset (rest.map (·.record.orderKey))
    ⟨rest.insertIdx at' ⟨record, rules⟩, min i at'⟩
  | none =>
    let at' := record.orderKey.offset (entries.map (·.record.orderKey))
    ⟨entries.insertIdx at' ⟨record, rules⟩, at'⟩

/-- The place of a record that is applied and only loses rules, if the whole
chain is as it must be. -/
def shrinkable? (l : Ledger) (record : Record) (rules : List Rule) : Option Nat := do
  let entries := l.applied.get record.direction
  let i ← entries.findIdx? fun a => a.record.name == record.name
  let known ← entries[i]?
  if known.record.orderKey == record.orderKey && Ledger.isSubsequence rules known.rules &&
      (l.firstOutOfSync record.direction).isNone then
    some i
  else none

def apply (s : Site) (record : Record) (rules : List Rule) : Outcome × Site :=
  match s.checkAlive with
  | (.error e, s) => (.error e, s)
  | (.ok (), s) =>
    match shrinkable? s.ledger record rules with
    | some i => s.shrink i record rules
    | none =>
      let d := record.direction
      let placed := place (s.ledger.applied.get d) record rules
      let ledger := { s.ledger with applied := s.ledger.applied.set d placed.entries }
      -- what earlier failures left out of step is built anew as well
      let start :=
        match ledger.firstOutOfSync d with
        | some i => min placed.start i
        | none => placed.start
      match resplice { s with ledger := ledger } d start with
      | (spliced, s) =>
        match s.updateDefaults with
        | (defaults, s) => (spliced.both defaults, s)

end Site

namespace Deployed

/-! ### Questions -/

def appliedRecords (f : Deployed) : List Record :=
  Direction.all.flatMap fun d => (f.ledger.applied.get d).map (·.record)

/-- Whether anything of a policy applies or is still in a chain. -/
def implements (f : Deployed) (dialect : Dialect) (parent : String) : Bool :=
  f.ledger.rules.keys.any (Record.belongsTo dialect parent) ||
    f.appliedRecords.any fun r => Record.belongsTo dialect parent r.name

end Deployed

end PodFirewall
