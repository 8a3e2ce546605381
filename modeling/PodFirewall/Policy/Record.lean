import PodFirewall.Policy.Query
import PodFirewall.Rule.Template

/-!
Records: what policies of both dialects are compiled to.
A record speaks of one direction and one peer. Its name is made of its place in
its policy; the names of all records of a policy start with the prefix of the
policy, which is how they are found again.
-/

namespace PodFirewall

inductive Dialect where
  | k8s
  | pcn
  deriving DecidableEq

namespace Dialect

def name : Dialect → String
  | k8s => "k8s"
  | pcn => "pcn"

end Dialect

/-- The policy that a record is part of. -/
structure Parent where
  name : String
  priority : Int
  dialect : Dialect
  deriving DecidableEq

/-- The pods that a policy protects. -/
structure Subject where
  /-- Without a query every pod of the namespace is meant. -/
  query : Option Query
  /-- Whether the pods are those behind a service. -/
  isService : Bool
  namespaceName : String
  deriving DecidableEq

namespace Subject

/-- Whether a subject covers the pods of a namespace with given labels. Pods
are never chosen by name here. -/
def covers (s : Subject) (namespaceName : String) (labels : Labels) : Bool :=
  namespaceName == s.namespaceName &&
    match s.query with
    | none => true
    | some (.labels l) => l.contained labels
    | some (.name _) => false

end Subject

/-- The other side of a connection. -/
inductive Peer where
  | networks (texts : List String)
  /-- Live pods in the namespaces of the cluster. -/
  | pods (query : Option Query) (namespaces : Option Query)
  deriving DecidableEq

namespace Peer

def queryText : Option Query → String
  | none => "*"
  | some q => q.text

/-- A text that tells descriptions of peers apart. -/
def key : Peer → String
  | networks texts => "ip:" ++ ",".intercalate texts
  | pods query namespaces => "pods:" ++ queryText query ++ "|ns:" ++ queryText namespaces

def namespaceQuery? : Peer → Option Query
  | pods _ namespaces => namespaces
  | networks _ => none

end Peer

/-- What a record does with packets: those of a peer, or all of them. -/
inductive PolicyAction where
  | forward
  | drop
  | forwardAll
  | dropAll
  deriving DecidableEq

namespace PolicyAction

def name : PolicyAction → String
  | forward => "forward"
  | drop => "drop"
  | forwardAll => "forward-all"
  | dropAll => "drop-all"

/-- Whether the action is for all packets, so that templates are used as they
are. -/
def isAll : PolicyAction → Bool
  | forwardAll | dropAll => true
  | forward | drop => false

def rule : PolicyAction → RuleAction
  | forward | forwardAll => .forward
  | drop | dropAll => .drop

def ofRule : RuleAction → PolicyAction
  | .forward => forward
  | .drop => drop

end PolicyAction

/-- A compiled part of a policy. -/
structure Record where
  name : String
  parent : Parent
  /-- The place among the records of the parent, lower first. -/
  priority : Int
  created : Option Timestamp
  direction : Direction
  subject : Subject
  peer : Option Peer
  /-- The rules of the record without the addresses of the peer. -/
  templates : List Rule
  action : PolicyAction
  deriving DecidableEq

namespace Record

/-- What the names of all records of a policy start with. -/
def parentPrefix (dialect : Dialect) (parent : String) : String :=
  dialect.name ++ ":" ++ parent ++ "#"

def nameAt (dialect : Dialect) (parent : String) (direction : Direction)
    (rule peer : Nat) : String :=
  parentPrefix dialect parent ++ toString rule ++ direction.letter.toString ++ "p" ++
    toString peer

def belongsTo (dialect : Dialect) (parent : String) (name : String) : Bool :=
  (parentPrefix dialect parent).toList.isPrefixOf name.toList

/-! ### Compiling the rules of one direction -/

/-- What all records of a policy have in common. -/
structure Header where
  parent : Parent
  created : Option Timestamp
  subject : Subject

structure Entry where
  action : PolicyAction
  peer : Option Peer
  templates : List Rule

/-- The record of an entry, from the number of its rule and its own number
among the entries of the direction. -/
def ofEntry (h : Header) (direction : Direction) (rule number : Nat) (e : Entry) : Record where
  name := nameAt h.parent.dialect h.parent.name direction rule number
  parent := h.parent
  priority := number
  created := h.created
  direction := direction
  subject := h.subject
  peer := e.peer
  templates := e.templates
  action := e.action

/-- The entry that leaves all packets to the default action. -/
def nothing : Entry := ⟨.dropAll, none, []⟩

/-- The records of a direction that is restricted by rules with the given
entries. If no rule has an entry, one record still restricts the direction. -/
def ofRules (h : Header) (direction : Direction) (rules : List (List Entry)) : List Record :=
  let entries := rules.zipIdx.flatMap fun r => r.1.map fun e => (r.2, e)
  match entries with
  | [] => [ofEntry h direction 0 0 nothing]
  | entries => entries.zipIdx.map fun e => ofEntry h direction e.1.1 e.2 e.1.2

end Record

end PodFirewall
