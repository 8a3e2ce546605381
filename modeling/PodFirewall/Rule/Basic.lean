import PodFirewall.Kube.Metadata

/-!
Packet-filter rules.
A rule says which packets it matches and what happens to them; within a chain
it is known by its id alone. Every listing of a chain ends with an entry for
the default action of the chain, which is no rule.
-/

namespace PodFirewall

/-- The two directions of traffic, as seen from the pods a policy protects. -/
inductive Direction where
  | incoming
  | outgoing
  deriving DecidableEq

namespace Direction

/-- Both directions, in the order they are worked on. -/
def all : List Direction := [incoming, outgoing]

def letter : Direction → Char
  | incoming => 'i'
  | outgoing => 'e'

end Direction

/-- The two chains of a firewall, as seen from the firewall. -/
inductive Chain where
  | ingress
  | egress
  deriving DecidableEq

namespace Chain

def all : List Chain := [ingress, egress]

def name : Chain → String
  | ingress => "ingress"
  | egress => "egress"

end Chain

/-- The chain that sees the traffic of a direction. What comes to a pod leaves
the firewall toward it, so it crosses the egress chain. -/
def Direction.chain : Direction → Chain
  | .incoming => .egress
  | .outgoing => .ingress

inductive RuleAction where
  | drop
  | forward
  deriving DecidableEq

namespace RuleAction

def name : RuleAction → String
  | drop => "drop"
  | forward => "forward"

end RuleAction

inductive Conntrack where
  | new
  | established
  | related
  | invalid
  deriving DecidableEq

/-- A rule of a chain. A field that is not set matches everything. -/
structure Rule where
  /-- The place of the rule in its chain. -/
  id : Nat
  src : Option String
  dst : Option String
  protocol : Option String
  sport : Option UInt16
  dport : Option UInt16
  action : RuleAction
  conntrack : Option Conntrack
  description : Option String
  deriving DecidableEq

namespace Rule

/-- The rule that drops everything. -/
def blank : Rule := ⟨0, none, none, none, none, none, .drop, none, none⟩

instance : Inhabited Rule := ⟨blank⟩

def defaultDescription : String := "Default Policy"

def isDefault (r : Rule) : Bool := r.description == some defaultDescription

def defaultEntry (n : Nat) (action : RuleAction) : Rule :=
  { blank with id := n, action := action, description := some defaultDescription }

/-- Whether two rules match the same packets and do the same with them. -/
def sameMatch (a b : Rule) : Bool :=
  a.src == b.src && a.dst == b.dst && a.protocol == b.protocol && a.sport == b.sport &&
    a.dport == b.dport && a.action == b.action && a.conntrack == b.conntrack

def textField (label : String) : Option String → String
  | some s => " " ++ label ++ s
  | none => ""

def text (r : Rule) : String :=
  "#" ++ toString r.id ++ " " ++ r.action.name ++ textField "" r.protocol ++
    textField "src=" r.src ++ textField "sport=" (r.sport.map fun p => toString p.toNat) ++
    textField "dst=" r.dst ++ textField "dport=" (r.dport.map fun p => toString p.toNat)

/-- The id that a rule appended to a listed chain gets. -/
def nextId (rules : List Rule) : Nat :=
  ((rules.filter fun r => !r.isDefault).map fun r => r.id + 1).foldl max 0

def numberFrom (first : Nat) : List Rule → List Rule
  | [] => []
  | r :: rest => { r with id := first } :: numberFrom (first + 1) rest

/-- A rule as it stands after the rule with some id left the chain: those
behind it move up. -/
def shift (id : Nat) (r : Rule) : Rule := if r.id > id then { r with id := r.id - 1 } else r

end Rule

end PodFirewall
