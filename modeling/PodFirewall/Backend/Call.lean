import PodFirewall.Rule.Basic

/-!
The calls that the packet-filter service understands, and how they fail.
Firewalls are known to the service by name, rules by chain and id.
-/

namespace PodFirewall

inductive Call where
  | find
  | create
  | destroy
  | read (chain : Chain)
  | append (chain : Chain) (rules : List Rule)
  | delete (chain : Chain) (id : Nat)
  | setDefault (chain : Chain) (action : RuleAction)
  | commit (chain : Chain)
  deriving DecidableEq

namespace Call

def text : Call → String
  | find => "exists"
  | create => "create"
  | destroy => "destroy"
  | read c => "read " ++ c.name
  | append c rules =>
    "append " ++ c.name ++ " " ++ ",".intercalate (rules.map fun r => toString r.id)
  | delete c id => "delete " ++ c.name ++ " " ++ toString id
  | setDefault c action => "default " ++ c.name ++ " " ++ action.name
  | commit c => "apply " ++ c.name

end Call

inductive BackendError where
  /-- The service answered with a status other than success. -/
  | status (method path : String) (code : Nat) (body : String)
  /-- The service did not answer. -/
  | request
  | decode (path : String)
  | noFirewall (name : String)
  deriving DecidableEq

namespace BackendError

def message : BackendError → String
  | status method path code body =>
    method ++ " " ++ path ++ ": status " ++ toString code ++ ": " ++ body
  | request => "request failed"
  | decode path => path ++ ": invalid response"
  | noFirewall name => "firewall " ++ name ++ " does not exist"

end BackendError

end PodFirewall
