import PodFirewall.Firewall.Fleet
import PodFirewall.Policy.Basic
import PodFirewall.Resolve.Basic
import PodFirewall.Watch.Change

/-!
The manager: it turns changes of policies and of the cluster into operations
on firewalls.
A policy is compiled, resolved and applied to the firewall of every group that
its subject covers. A change of a pod, a namespace or a service leads to no
more than resolving anew those applied records whose peers it may concern.
-/

namespace PodFirewall

inductive ManagerError where
  | notReady (e : NotReady)
  | firewall (e : FirewallError)
  | failures (what : String) (count : Nat)
  deriving DecidableEq

namespace ManagerError

def message : ManagerError → String
  | notReady e => e.message
  | firewall e => e.message
  | failures what count => what ++ ": " ++ toString count ++ " operations failed"

end ManagerError

structure Manager where
  node : String
  /-- Namespaces whose pods never get a firewall. -/
  ignored : List String
  range : Option Ipv4Range
  cluster : Cluster
  k8sPolicies : Store NetworkPolicy.Spec
  pcnPolicies : Store PolycubePolicy.Body
  fleet : Fleet

namespace Manager

abbrev Result := Except ManagerError Unit

/-- Success, if nothing failed. -/
def failures (what : String) (count : Nat) : Result :=
  if count = 0 then .ok () else .error (.failures what count)

def resolver (m : Manager) : Resolver := ⟨m.cluster, m.range⟩

/-- Whether a pod gets a firewall on this node. -/
def monitors (m : Manager) (p : Pod) : Bool :=
  p.live && !p.hostNetwork && p.node == some m.node && !m.ignored.contains p.namespaceName

/-! ### Working on many firewalls -/

/-- Does something for each group in turn, and counts the failures. -/
def forEach (op : PodGroup → Fleet → Nat × Fleet) : List PodGroup → Nat → Fleet → Nat × Fleet
  | [], failed, f => (failed, f)
  | group :: rest, failed, f =>
    match op group f with
    | (n, f) => forEach op rest (failed + n) f

def attempt (f : Fleet) (group : PodGroup) (op : Site → Outcome × Site) : Nat × Fleet :=
  match f.onGroup group (.ok ()) op with
  | (.ok (), f) => (0, f)
  | (.error _, f) => (1, f)

abbrev Resolved := Record × Except NotReady (List Rule)

def applyEach (group : PodGroup) : List Resolved → Nat → Fleet → Nat × Fleet
  | [], failed, f => (failed, f)
  | (_, .error _) :: rest, failed, f => applyEach group rest (failed + 1) f
  | (record, .ok rules) :: rest, failed, f =>
    match attempt f group fun s => s.apply record rules with
    | (n, f) => applyEach group rest (failed + n) f

def ceaseEach (group : PodGroup) : List Record → Nat → Fleet → Nat × Fleet
  | [], failed, f => (failed, f)
  | record :: rest, failed, f =>
    match attempt f group fun s => s.cease record.name with
    | (n, f) => ceaseEach group rest (failed + n) f

/-! ### Policies -/

/-- The records of a policy; `none` for a policy that cannot be enforced as it
is. -/
def records (m : Manager) (p : Policy) : Except NotReady (Option (List Record)) :=
  match p.serviceTarget with
  | .error _ => .ok none
  | .ok none => .ok (p.records none).toOption
  | .ok (some name) =>
    match m.cluster.service? (p.metadata.namespaceName.getD "") name with
    | .error e => .error e
    | .ok service => .ok (p.records service).toOption

def groupsIn (f : Fleet) (namespaceName : String) : List PodGroup :=
  f.groups.keys.filter fun g => g.namespaceName == namespaceName

def removeFrom (dialect : Dialect) (parent : String) (group : PodGroup) (f : Fleet) :
    Nat × Fleet :=
  match f.site? group with
  | none => (0, f)
  | some s =>
    if s.implements dialect parent then attempt f group fun s => s.ceaseParent dialect parent
    else (0, f)

/-- The records of a group's firewall that are part of a policy but not among
those of its present version. -/
def outdated (f : Fleet) (group : PodGroup) (dialect : Dialect) (parent : String)
    (names : List String) : List Record :=
  match f.site? group with
  | none => []
  | some s =>
    s.appliedRecords.filter fun r =>
      r.parent.dialect == dialect && r.parent.name == parent && !names.contains r.name

/-- Brings the firewall of a group in line with the present version of a
policy: removes the policy if its subject does not cover the group, or else
applies its records and removes those of older versions. -/
def deployTo (resolver : Resolver) (dialect : Dialect) (parent : String)
    (records : List Record) (group : PodGroup) (f : Fleet) : Nat × Fleet :=
  -- all records of a policy have one subject
  let covered :=
    match records with
    | [] => false
    | r :: _ => r.subject.covers group.namespaceName group.labels
  if covered then
    match applyEach group (records.map fun r => (r, resolver.resolve r)) 0 f with
    | (failed, f) =>
      ceaseEach group (outdated f group dialect parent (records.map (·.name))) failed f
  else removeFrom dialect parent group f

def removePolicy (m : Manager) (dialect : Dialect) (key : ObjectKey) : Result × Manager :=
  match forEach (removeFrom dialect key.name) (groupsIn m.fleet key.namespaceName) 0 m.fleet with
  | (failed, f) => (failures (Policy.describe dialect (some key)) failed, { m with fleet := f })

/-- Puts a policy on all firewalls that it covers, and removes it from all
others. -/
def deployPolicy (m : Manager) (p : Policy) : Result × Manager :=
  match p.key? with
  | none => (.ok (), m)
  | some key =>
    match m.records p with
    | .error e => (.error (.notReady e), m)
    | .ok none => m.removePolicy p.dialect key
    | .ok (some records) =>
      match forEach (deployTo m.resolver p.dialect key.name records)
          (groupsIn m.fleet key.namespaceName) 0 m.fleet with
      | (failed, f) => (failures p.text failed, { m with fleet := f })

/-- The policies of a namespace, standard ones first. -/
def policiesIn (m : Manager) (namespaceName : String) : List Policy :=
  (m.k8sPolicies.list (Cluster.livesIn namespaceName)).map (fun p => .k8s p.object) ++
    (m.pcnPolicies.list (Cluster.livesIn namespaceName)).map fun p => .pcn p.object

def syncEach (m : Manager) (group : PodGroup) :
    List Policy → Nat → Fleet → Except NotReady Nat × Fleet
  | [], failed, f => (.ok failed, f)
  | p :: rest, failed, f =>
    match m.records p with
    | .error e => (.error e, f)
    | .ok none => syncEach m group rest failed f
    | .ok (some records) =>
      let covering := records.filter fun r => r.subject.covers group.namespaceName group.labels
      match applyEach group (covering.map fun r => (r, m.resolver.resolve r)) failed f with
      | (failed, f) => syncEach m group rest failed f

def syncGroup (m : Manager) (group : PodGroup) (firewall : String) : Result × Manager :=
  match m.syncEach group (m.policiesIn group.namespaceName) 0 m.fleet with
  | (.error e, f) => (.error (.notReady e), { m with fleet := f })
  | (.ok failed, f) =>
    (failures (firewall ++ ": sync of " ++ group.text) failed, { m with fleet := f })

/-! ### Refreshing applied records -/

structure Refresh where
  /-- What resolving gave, by the namespace of the subject and the name of the
  record. -/
  cache : List ((String × String) × Option (List Rule))
  failed : Nat
  fleet : Fleet

/-- What resolving a record gives, from the cache if its name was resolved
before. -/
def cached (resolver : Resolver) (record : Record) (r : Refresh) :
    Option (List Rule) × Refresh :=
  let key := (record.subject.namespaceName, record.name)
  match r.cache.lookup key with
  | some rules => (rules, r)
  | none =>
    let rules := (resolver.resolve record).toOption
    (rules, { r with cache := (key, rules) :: r.cache })

def refreshRecord (resolver : Resolver) (group : PodGroup) (r : Refresh) (record : Record) :
    Refresh :=
  match cached resolver record r with
  | (none, r) => { r with failed := r.failed + 1 }
  | (some rules, r) =>
    match attempt r.fleet group fun s => s.apply record rules with
    | (n, f) => { r with failed := r.failed + n, fleet := f }

def refreshGroup (resolver : Resolver) (affected : Record → Bool) (r : Refresh)
    (group : PodGroup) : Refresh :=
  match r.fleet.site? group with
  | none => r
  | some s => (s.appliedRecords.filter affected).foldl (refreshRecord resolver group) r

def refresh (m : Manager) (affected : Record → Bool) : Result × Manager :=
  let r := m.fleet.groups.keys.foldl (refreshGroup m.resolver affected) ⟨[], 0, m.fleet⟩
  (failures "peer refresh" r.failed, { m with fleet := r.fleet })

/-! ### Changes of the cluster -/

/-- Whether a peer may be a pod that lives in a namespace. -/
def mayBe (peer : Peer) (p : Pod) (n : Namespace) : Bool :=
  match peer with
  | .networks _ => false
  | .pods query namespaces =>
    Query.allows query p.name p.labels && Query.allows namespaces n.name n.labels

/-- What peers depend on in a pod: nothing unless it is live, and not its
node. -/
def peerView (p : Option Pod) : Option Pod :=
  (p.filter Pod.live).map fun p => { p with node := none }

/-- Puts a pod into its group, or takes it out of the one it was in. -/
def regroup (m : Manager) (now : Nat) (key : ObjectKey) (new : Option Pod) : Result × Manager :=
  match new.filter m.monitors with
  | none => (.ok (), { m with fleet := m.fleet.removePod now key })
  | some pod =>
    let group := PodGroup.ofPod pod
    match m.fleet.addPod now group key with
    | (.error e, f) => (.error (.firewall e), { m with fleet := f })
    | (.ok membership, f) =>
      let m := { m with fleet := f }
      -- a group whose sync fails stays unmarked, so the next of its pods tries again
      if membership.needsSync then
        match m.syncGroup group membership.firewall with
        | (.error e, m) => (.error e, m)
        | (.ok (), m) => (.ok (), { m with fleet := m.fleet.markSynced group })
      else (.ok (), m)

def onPod (m : Manager) (now : Nat) (key : ObjectKey) (change : Change (Stored Pod)) :
    Result × Manager :=
  let old := change.old.map (·.object.body)
  let new := change.new.map (·.object.body)
  match m.regroup now key new with
  | (.error e, m) => (.error e, m)
  | (.ok (), m) =>
    let old := peerView old
    let new := peerView new
    if old = new then (.ok (), m)
    else
      let homes := (old.toList ++ new.toList).mapM fun p =>
        (m.cluster.namespaceNamed p.namespaceName).map fun n => (p, n)
      match homes with
      | .error e => (.error (.notReady e), m)
      | .ok homes =>
        m.refresh fun r =>
          match r.peer with
          | none => false
          | some peer => homes.any fun h => mayBe peer h.1 h.2

/-- Handles a change of a namespace. Only its labels matter here; its pods
come and go as changes of their own. -/
def onNamespace (m : Manager) (change : Change (Stored Namespace)) : Result × Manager :=
  let old := change.old.map (·.object.body)
  let new := change.new.map (·.object.body)
  if old.map (·.labels) = new.map (·.labels) then (.ok (), m)
  else
    m.refresh fun r =>
      match r.peer.bind Peer.namespaceQuery? with
      | some (.labels l) => (old.toList ++ new.toList).any fun n => l.contained n.labels
      -- a query by name, or none at all, does not look at labels
      | _ => false

/-- Deploys policies in turn. The last failure counts. -/
def deployEach : List Policy → Result → Manager → Result × Manager
  | [], out, m => (out, m)
  | p :: rest, out, m =>
    match m.deployPolicy p with
    | (.ok (), m) => deployEach rest out m
    | (.error e, m) => deployEach rest (.error e) m

def targeting (m : Manager) (key : ObjectKey) : List Policy :=
  (m.pcnPolicies.list fun p =>
    Cluster.livesIn key.namespaceName p && p.body.applyTo.kind == .service &&
      p.body.applyTo.withName == some key.name).map fun p => .pcn p.object

/-- Handles a change of a service: the policies that apply to it are deployed
anew, and records for outgoing traffic to pods of its namespace are resolved
anew. -/
def onService (m : Manager) (key : ObjectKey) (change : Change (Stored Service)) :
    Result × Manager :=
  let old := change.old.map (·.object.body)
  let new := change.new.map (·.object.body)
  match deployEach (m.targeting key) (.ok ()) m with
  | (deployed, m) =>
    if old = new then (deployed, m)
    else
      match m.cluster.namespaceNamed key.namespaceName with
      | .error e => (.error (.notReady e), m)
      | .ok n =>
        let refreshed := m.refresh fun r =>
          r.direction == .outgoing &&
            match r.peer with
            | some (.pods _ namespaces) => Query.allows namespaces n.name n.labels
            | _ => false
        -- a failed deployment is reported, but does not keep records from being refreshed
        match deployed with
        | .ok () => refreshed
        | .error e => (.error e, refreshed.2)

def onNetworkPolicy (m : Manager) (key : ObjectKey)
    (change : Change (Stored NetworkPolicy.Spec)) : Result × Manager :=
  match change.new with
  | some p => m.deployPolicy (.k8s p.object)
  | none => m.removePolicy .k8s key

def onPolycubePolicy (m : Manager) (key : ObjectKey)
    (change : Change (Stored PolycubePolicy.Body)) : Result × Manager :=
  match change.new with
  | some p => m.deployPolicy (.pcn p.object)
  | none => m.removePolicy .pcn key

def sweep (m : Manager) (now timeout : Nat) : List String × Manager :=
  match m.fleet.destroyIdle now timeout with
  | (names, f) => (names, { m with fleet := f })

def sweepAt (timeout : Nat) : Manager → List Nat → Manager
  | m, [] => m
  | m, now :: rest => sweepAt timeout (m.sweep now timeout).2 rest

/-- Sweeps at once, and then whenever an interval has passed within a span of
time. Without an interval there is no sweep. -/
def sweepDuring (now span interval timeout : Nat) (m : Manager) : Manager :=
  if interval = 0 then m
  else sweepAt timeout m ((List.range (span / interval + 1)).map fun i => now + i * interval)

end Manager

end PodFirewall
