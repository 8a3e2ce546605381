import PodFirewall.Data.Pairs
import PodFirewall.Policy.Order

/-!
The ledger of a firewall: which rule of which chain belongs to which record.
The service knows rules by number only, so the ledger is the only memory of
what they are for. Next to the rules that are in the chains it holds the
records that should be there, in the order of evaluation, and the default
actions last set.
-/

namespace PodFirewall

/-- A record that is applied, with the rules it must have in its chain. -/
structure Applied where
  record : Record
  rules : List Rule
  deriving DecidableEq

structure Ledger where
  /-- The rules in the chains, by the name of their record. -/
  rules : OrdMap String (PerDirection (List Rule))
  /-- The records that apply, in the order of evaluation. -/
  applied : PerDirection (List Applied)
  defaults : PerDirection (Option RuleAction)
  deriving DecidableEq

namespace Ledger

def empty : Ledger := ⟨∅, ⟨[], []⟩, ⟨none, none⟩⟩

instance : Inhabited Ledger := ⟨empty⟩

def recorded (l : Ledger) (name : String) (d : Direction) : List Rule :=
  ((l.rules.get? name).map fun p => p.get d).getD []

def record (l : Ledger) (name : String) (d : Direction) (rules : List Rule) : Ledger :=
  if rules.isEmpty then l
  else
    let known := (l.rules.get? name).getD ⟨[], []⟩
    { l with rules := l.rules.insert name (known.modify d (· ++ rules)) }

def isBare (p : PerDirection (List Rule)) : Bool := p.incoming.isEmpty && p.outgoing.isEmpty

/-- The rules of a name after the one with a number left the chain. -/
def without (id : Nat) (rules : List Rule) : List Rule :=
  (rules.filter fun r => r.id != id).map (Rule.shift id)

/-- The ledger after a rule left the chain of a direction: it leaves its name,
and the rules behind it move up. -/
def deleted (l : Ledger) (d : Direction) (id : Nat) : Ledger :=
  { l with rules := (l.rules.map fun _ p => p.modify d (without id)).filter fun _ p => !isBare p }

def sameRules : List Rule → List Rule → Bool
  | [], [] => true
  | a :: l, b :: l' => a.sameMatch b && sameRules l l'
  | _, _ => false

/-- Whether a list of rules is another one with some rules left out. -/
def isSubsequence : List Rule → List Rule → Bool
  | [], _ => true
  | r :: small, big =>
    match big.dropWhile fun b => !b.sameMatch r with
    | [] => false
    | _ :: rest => isSubsequence small rest

/-- Whether the chain holds just the rules that a record must have. -/
def inSync (l : Ledger) (d : Direction) (a : Applied) : Bool :=
  sameRules (l.recorded a.record.name d) a.rules

def firstOutOfSync (l : Ledger) (d : Direction) : Option Nat :=
  (l.applied.get d).findIdx? fun a => !l.inSync d a

/-- The ledger without those records, among the ones that apply, whose names
satisfy a test. -/
def retire (l : Ledger) (p : String → Bool) : Ledger :=
  { l with applied := l.applied.map fun entries => entries.filter fun a => !p a.record.name }

def restricted (l : Ledger) : List Direction :=
  Direction.all.filter fun d => !(l.applied.get d).isEmpty

end Ledger

end PodFirewall
