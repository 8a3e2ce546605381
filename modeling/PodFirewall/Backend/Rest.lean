import PodFirewall.Backend.Call
import PodFirewall.Json.Parser
import PodFirewall.Rule.Json
import PodFirewall.Text.Blank

/-!
The packet-filter service behind its REST interface: the requests that a call
is made of, and what their answers mean. The requests of a call are sent one
after the other, up to the first that does not succeed.
-/

namespace PodFirewall

inductive RequestMethod where
  | get
  | post
  | patch
  | delete
  deriving DecidableEq

namespace RequestMethod

def name : RequestMethod → String
  | get => "GET"
  | post => "POST"
  | patch => "PATCH"
  | delete => "DELETE"

end RequestMethod

structure Request where
  method : RequestMethod
  /-- The path below that of the service. -/
  path : String
  body : Option Json

structure Response where
  code : Nat
  body : String

namespace Response

def succeeded (r : Response) : Bool := 200 ≤ r.code && r.code < 300

end Response

inductive Connection where
  /-- No connection can be made, so that no request leaves. -/
  | broken
  /-- Each request gets the next answer; without one the connection is closed
  after the request. -/
  | serving (answers : List (Option Response))

namespace Connection

def delivers : Connection → Bool
  | broken => false
  | serving _ => true

def answer : Connection → Except BackendError (Response × Connection)
  | serving (some r :: rest) => .ok (r, serving rest)
  | _ => .error .request

end Connection

inductive CallResult where
  | done
  | found (yes : Bool)
  | rules (rules : List Rule)

namespace Request

def fullPath (base : String) (r : Request) : String :=
  let trimmed := (base.toList.reverse.dropWhile (· == '/')).reverse
  String.ofList trimmed ++ "/" ++ r.path ++ "/"

def failure (r : Request) (answer : Response) : BackendError :=
  .status r.method.name r.path answer.code answer.body

end Request

namespace Call

def chainPath (name : String) (c : Chain) : String := "firewall/" ++ name ++ "/chain/" ++ c.name

/-- The requests that a call is made of. Rules only take effect when they are
committed, so a new firewall is told not to be interactive. -/
def requests (name : String) : Call → List Request
  | find => [⟨.get, "firewall/" ++ name ++ "/uuid", none⟩]
  | create =>
    [⟨.post, "firewall/" ++ name, some (.obj [("name", .str name)])⟩,
      ⟨.patch, "firewall/" ++ name ++ "/interactive", some (.bool false)⟩]
  | destroy => [⟨.delete, "firewall/" ++ name, none⟩]
  | read c => [⟨.get, chainPath name c ++ "/rule", none⟩]
  | append _ [] => []
  | append c rules => [⟨.post, chainPath name c ++ "/rule", some (Json.ofList Rule.toJson rules)⟩]
  | delete c id => [⟨.delete, chainPath name c ++ "/rule/" ++ toString id, none⟩]
  | setDefault c action => [⟨.patch, chainPath name c ++ "/default", some action.toJson⟩]
  | commit c => [⟨.post, chainPath name c ++ "/apply-rules", none⟩]

/-- The rules that an answer lists; an empty answer lists none. -/
def listedRules? (body : String) : Option (List Rule) :=
  if (Text.skipBlanks body.toList).isEmpty then some []
  else (Json.parse? body).bind (Json.list? Rule.ofJson?)

def understand (call : Call) (r : Request) (answer : Response) :
    Except BackendError CallResult :=
  match call with
  | find =>
    if answer.succeeded then .ok (.found true)
    else if answer.code = 404 then .ok (.found false)
    else .error (r.failure answer)
  | read _ =>
    if answer.succeeded then
      match listedRules? answer.body with
      | some rules => .ok (.rules rules)
      | none => .error (.decode r.path)
    else .error (r.failure answer)
  | _ => if answer.succeeded then .ok .done else .error (r.failure answer)

/-- Sends requests of a call until one fails; those that arrived are returned
as well. -/
def sendAll (call : Call) (result : CallResult) :
    List Request → Connection → Except BackendError CallResult × List Request
  | [], _ => (.ok result, [])
  | r :: rest, connection =>
    let arrived := if connection.delivers then [r] else []
    match connection.answer with
    | .error e => (.error e, arrived)
    | .ok (answer, connection) =>
      match call.understand r answer with
      | .error e => (.error e, arrived)
      | .ok result =>
        match call.sendAll result rest connection with
        | (outcome, more) => (outcome, arrived ++ more)

def exchange (call : Call) (name : String) (connection : Connection) :
    Except BackendError CallResult × List Request :=
  call.sendAll .done (call.requests name) connection

end Call

end PodFirewall
