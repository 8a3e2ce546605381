import PodFirewall.Address.Cidr
import PodFirewall.NetworkPolicy.Basic
import PodFirewall.Text.Quoted

/-!
From the selectors and blocks of policies to queries and peers.
Only selectors by equal labels can be expressed as a query, and every network
must be well formed, or its peer is refused as a whole.
-/

namespace PodFirewall

inductive PeerError where
  | hasExpressions
  | noPeer
  | badNetwork (text : String) (fault : CidrError)
  deriving DecidableEq

namespace PeerError

def message : PeerError → String
  | hasExpressions => "unsupported selector: match expressions"
  | noPeer => "peer has neither a selector nor an ip block"
  | badNetwork text fault => "invalid cidr " ++ Text.quoted text ++ ": " ++ fault.message

end PeerError

namespace LabelSelector

def query (s : LabelSelector) : Except PeerError (Option Query) :=
  if s.hasExpressions then .error .hasExpressions else .ok (Query.build? none (some s.labels))

/-- The query for an optional selector; a missing one selects everything. -/
def queryOf : Option LabelSelector → Except PeerError (Option Query)
  | none => .ok none
  | some s => s.query

end LabelSelector

namespace Peer

/-- The peer for selectors of pods and namespaces, in a policy of some
namespace. Without a selector of namespaces that namespace is meant. -/
def ofSelectors (pods namespaces : Option LabelSelector) (policyNamespace : String) :
    Except PeerError Peer := do
  let namespaceQuery ← match pods, namespaces with
    | none, none => .error .noPeer
    | _, some s => s.query
    | _, none => .ok (some (.name policyNamespace))
  return .pods (← LabelSelector.queryOf pods) namespaceQuery

def checkNetwork (text : String) : Except PeerError Unit :=
  match Cidr.parseNetwork text with
  | .ok _ => .ok ()
  | .error fault => .error (.badNetwork text fault)

def checkNetworks : List String → Except PeerError Unit
  | [] => .ok ()
  | text :: rest =>
    match checkNetwork text with
    | .error e => .error e
    | .ok () => checkNetworks rest

/-- The peers of a block: its exceptions, if there are any, and the block
itself. -/
def ofBlock (b : IpBlock) : Except PeerError (Option Peer × Peer) :=
  match checkNetworks (b.cidr :: b.except) with
  | .error e => .error e
  | .ok () =>
    .ok (if b.except.isEmpty then none else some (.networks b.except), .networks [b.cidr])

end Peer

end PodFirewall
