import PodFirewall.Backend.Call
import PodFirewall.Data.Pairs

/-!
The packet-filter service as a value.
A chain keeps its rules numbered from 0 without gaps: rules can only be
appended under the next number, and deleting one moves those behind it up. Each
call is recorded, with whether it was done, and may be made to fail by a fault
that depends on everything about it; a call that fails leaves all firewalls as
they were.
-/

namespace PodFirewall

structure ChainState where
  /-- What happens to packets that no rule matches, if it was ever said. -/
  defaultAction : Option RuleAction
  rules : List Rule
  commits : Nat
  appends : Nat
  deriving DecidableEq

namespace ChainState

def empty : ChainState := ⟨none, [], 0, 0⟩

/-- What is listed for a chain: its rules, then its default action. -/
def listing (c : ChainState) : List Rule :=
  c.rules ++ [Rule.defaultEntry c.rules.length (c.defaultAction.getD .drop)]

end ChainState

abbrev FirewallState := PerChain ChainState

inductive Fault where
  /-- The call never reaches the service. -/
  | lost (label : String)
  /-- The service refuses the call, if it has the firewall at all. -/
  | refused
  deriving DecidableEq

structure LogEntry where
  firewall : String
  call : Call
  done : Bool

structure Backend where
  firewalls : OrdMap String FirewallState
  /-- What goes wrong: by the number of calls made before, the firewall and
  the call. -/
  faults : Nat → String → Call → Option Fault
  /-- The calls made so far, the last one first. -/
  log : List LogEntry

namespace Backend

def empty : Backend := ⟨∅, fun _ _ _ => none, []⟩

instance : Inhabited Backend := ⟨empty⟩

def rulePath (name : String) (c : Chain) (id : Option Nat) : String :=
  name ++ "/" ++ c.name ++ "/rule" ++
    match id with
    | some id => "/" ++ toString id
    | none => ""

/-- The rules of a chain after appending more, each of which must have the
next number. -/
def appendRules (name : String) (c : Chain) (rules : List Rule) :
    List Rule → Except BackendError (List Rule)
  | [] => .ok rules
  | r :: rest =>
    if r.id = rules.length then appendRules name c (rules ++ [r]) rest
    else
      .error (.status "POST" (rulePath name c (some r.id)) 500
        (if r.id > rules.length then "rule id not allowed" else "rejected"))

/-- The rules of a chain after deleting the one with a number; those behind it
move up. -/
def deleteRule (id : Nat) : List Rule → Option (List Rule)
  | [] => none
  | r :: rest =>
    if r.id = id then some (rest.map fun r => { r with id := r.id - 1 })
    else (deleteRule id rest).map (r :: ·)

def change (name : String) (fw : FirewallState) : Call → Except BackendError FirewallState
  | .append c rules =>
    let chain := fw.get c
    match appendRules name c chain.rules rules with
    | .ok rules => .ok (fw.set c { chain with rules := rules, appends := chain.appends + 1 })
    | .error e => .error e
  | .delete c id =>
    let chain := fw.get c
    match deleteRule id chain.rules with
    | some rules => .ok (fw.set c { chain with rules := rules })
    | none => .error (.status "DELETE" (rulePath name c (some id)) 500 "rejected")
  | .setDefault c action => .ok (fw.set c { fw.get c with defaultAction := some action })
  | .commit c => .ok (fw.set c { fw.get c with commits := (fw.get c).commits + 1 })
  | _ => .ok fw

/-- The firewalls after a call that nothing disturbs. -/
def effect (b : Backend) (name : String) (call : Call) :
    Except BackendError (OrdMap String FirewallState) :=
  match call, b.firewalls.get? name with
  | .find, _ => .ok b.firewalls
  | .create, none => .ok (b.firewalls.insert name ⟨.empty, .empty⟩)
  | .create, some _ => .ok b.firewalls
  | _, none => .error (.noFirewall name)
  | .destroy, some _ => .ok (b.firewalls.erase name)
  | call, some fw =>
    match change name fw call with
    | .ok fw => .ok (b.firewalls.insert name fw)
    | .error e => .error e

def refusal (name : String) : Call → BackendError
  | .append c _ => .status "POST" (rulePath name c none) 500 "rejected"
  | .delete c id => .status "DELETE" (rulePath name c (some id)) 500 "rejected"
  | _ => .status "POST" name 500 "rejected"

def outcome (b : Backend) (fault : Option Fault) (name : String) (call : Call) :
    Except BackendError (OrdMap String FirewallState) :=
  match fault with
  | none => b.effect name call
  | some (.lost label) => .error (.status "TEST" label 503 "injected")
  | some .refused =>
    if b.firewalls.contains name then .error (refusal name call) else .error (.noFirewall name)

def perform (b : Backend) (name : String) (call : Call) : Except BackendError Unit × Backend :=
  match b.outcome (b.faults b.log.length name call) name call with
  | .ok firewalls => (.ok (), { b with firewalls := firewalls, log := ⟨name, call, true⟩ :: b.log })
  | .error e => (.error e, { b with log := ⟨name, call, false⟩ :: b.log })

/-- Makes calls one after the other, up to the first that fails. -/
def performAll (b : Backend) (name : String) : List Call → Except BackendError Unit × Backend
  | [] => (.ok (), b)
  | call :: rest =>
    match b.perform name call with
    | (.ok (), b) => b.performAll name rest
    | (.error e, b) => (.error e, b)

def find (b : Backend) (name : String) : Except BackendError Bool × Backend :=
  match b.perform name .find with
  | (.ok (), b) => (.ok (b.firewalls.contains name), b)
  | (.error e, b) => (.error e, b)

def read (b : Backend) (name : String) (c : Chain) : Except BackendError (List Rule) × Backend :=
  match b.perform name (.read c) with
  | (.ok (), b) =>
    (.ok (((b.firewalls.get? name).map fun fw => (fw.get c).listing).getD []), b)
  | (.error e, b) => (.error e, b)

/-- Makes a change of the service from elsewhere, which is not recorded and
cannot be lost. -/
def intervene (b : Backend) (name : String) (call : Call) :
    Except BackendError Unit × Backend :=
  let fault := (b.faults b.log.length name call).filter fun f => f == .refused
  match b.outcome fault name call with
  | .ok firewalls => (.ok (), { b with firewalls := firewalls })
  | .error e => (.error e, b)

end Backend

end PodFirewall
