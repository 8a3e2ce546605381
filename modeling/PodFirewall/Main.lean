import PodFirewall.Json.Parser
import PodFirewall.Manager.Operator
import PodFirewall.Settings.Basic
import PodFirewall.Watch.Json

/-!
The command line. It checks the settings and then works on watch messages,
one JSON object on each line of the standard input, against a packet-filter
service held in memory. What became of each change is printed, then the chains
of all firewalls.
-/

namespace PodFirewall.CommandLine

structure Options where
  config : String
  node : String
  /-- Whether only the settings are checked. -/
  testConfig : Bool

/-- The options that the arguments give; `none` for arguments that are not
understood. -/
def Options.ofArgs? (o : Options) : List String → Option Options
  | [] => some o
  | "--test-config" :: rest => ofArgs? { o with testConfig := true } rest
  | "--config" :: file :: rest => ofArgs? { o with config := file } rest
  | "-c" :: file :: rest => ofArgs? { o with config := file } rest
  | "--node-name" :: name :: rest => ofArgs? { o with node := name } rest
  | _ => none

def checkSettings (text : String) : Except String (Settings × Option Ipv4Range) :=
  match Settings.ofYaml? text with
  | none => .error "parse config failed"
  | some s =>
    match s.clusterUri, s.range with
    | some none, _ => .error "invalid cluster_url"
    | _, .error e => .error ("invalid vpods_range: " ++ e.message)
    | _, .ok range => .ok (s, range)

def handledLine (h : Handled) : String :=
  let outcome :=
    match h.result with
    | .ok () => "ok"
    | .error e => e.message
  h.key.text ++ " " ++ h.kind.name ++ ": " ++ outcome

/-- Works on a message; `none` for one that is not understood. -/
def work? (o : Operator) (line : String) : Option (List String × Operator) := do
  let j ← Json.parse? line
  let ⟨_, w⟩ := Watched.ofResource (← Kube.Resource.ofName? (← (j.getD "kind").str?))
  let (changed, o) := o.ingest w (← WatchEvent.ofJson? w.read j)
  let (handled, o) := Operator.processEach w 0 changed o
  return (handled.map handledLine, o)

def chainLines (o : Operator) : List String :=
  let fleet := o.manager.fleet
  fleet.all.flatMap fun e =>
    let chains := Chain.all.flatMap fun c =>
      let rules := ((fleet.backend.firewalls.get? e.2.name).map fun fw => (fw.get c).rules).getD []
      rules.map fun r => "  " ++ c.name ++ " " ++ r.text
    (e.1.text ++ " " ++ e.2.name) :: chains

partial def workAll (input : IO.FS.Stream) (o : Operator) : IO Operator := do
  let line ← input.getLine
  if line.isEmpty then return o
  match work? o line with
  | some (lines, o) =>
    lines.forM fun l => IO.println l
    workAll input o
  | none =>
    IO.eprintln "message not understood"
    workAll input o

def runOperator (options : Options) (settings : Settings) (range : Option Ipv4Range) :
    IO Unit := do
  let start := Operator.start options.node settings.ignoredNamespaces range .empty
  let o ← workAll (← IO.getStdin) start
  (chainLines o).forM fun l => IO.println l

def fail (message : String) : IO UInt32 := do
  IO.eprintln ("Error: " ++ message)
  return 1

def run (args : List String) : IO UInt32 := do
  let node := (← IO.getEnv "NODE_NAME").getD ""
  match Options.ofArgs? ⟨"config.yaml", node, false⟩ args with
  | none =>
    IO.eprintln "options: [--config FILE] [--node-name NAME] [--test-config]"
    return 2
  | some options =>
    match ← (IO.FS.readFile options.config).toBaseIO with
    | .error e => fail ("read config failed: " ++ options.config ++ ": " ++ toString e)
    | .ok text =>
      match checkSettings text with
      | .error e => fail e
      | .ok (settings, range) =>
        unless options.testConfig do runOperator options settings range
        return 0

end PodFirewall.CommandLine

def main (args : List String) : IO UInt32 := PodFirewall.CommandLine.run args
