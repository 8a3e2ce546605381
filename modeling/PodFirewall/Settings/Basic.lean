import PodFirewall.Address.Cidr
import PodFirewall.Address.Uri
import PodFirewall.Json.Decode
import PodFirewall.Queue.Backoff
import PodFirewall.Yaml.Document

/-!
The settings of the controller.
They are written as a JSON or YAML record; both are read by the same rules,
given how each of them writes texts, numbers, lists and nothing. The URL and
the range are kept as they are written and only understood on demand.
-/

namespace PodFirewall

/-- The settings. Delays are in milliseconds, all other times in seconds. -/
structure Settings where
  /-- The namespace that is watched instead of the whole cluster. -/
  watchedNamespace : Option String
  clusterUrl : Option String
  serviceUrl : String
  requestTimeout : Nat
  virtualRange : Option String
  /-- The namespaces whose pods get no firewall. -/
  ignoredNamespaces : List String
  maxRetries : Nat
  baseDelay : Nat
  maxDelay : Nat
  /-- How long a firewall may be without pods. -/
  idleTimeout : Nat
  sweepInterval : Nat

namespace Settings

structure Format (ν : Type) where
  /-- A value unless it stands for null. -/
  optional? : ν → Option (Option ν)
  text? : ν → Option String
  number? : Nat → ν → Option Nat
  list? : ν → Option (List ν)

def jsonFormat : Format Json where
  optional? := Json.nullable? some
  text? := Json.str?
  number? := Json.natBelow?
  list? := Json.list? some

def yamlFormat (d : Yaml.Document) : Format Yaml where
  optional? := d.optional?
  text? := d.text?
  number? bound v := (d.nat? v).filter (· < bound)
  list? := d.list?

def fieldNames : List String :=
  ["namespace", "cluster_url", "polycube_url", "request_timeout", "vpods_range",
    "ignored_namespaces", "max_retries", "base_delay_ms", "max_delay_ms", "idle_timeout",
    "janitor_interval"]

section

variable {ν α : Type} (format : Format ν) (fields : List (String × ν))

def field? (name : String) : Option ν := (fields.find? fun f => f.1 == name).map (·.2)

def optionalText (name : String) : Option (Option String) :=
  match field? fields name with
  | none => some none
  | some v => do
    match ← format.optional? v with
    | none => return none
    | some v => (format.text? v).map some

/-- A field that has a default, which does not stand in for null. -/
def withDefault (name : String) (read : ν → Option α) (default : α) : Option α :=
  match field? fields name with
  | none => some default
  | some v => read v

/-- The settings that some fields write. Numbers are words of 64 bits, but the
number of retries is one of 32. -/
def ofFields? : Option Settings := do
  let text := format.text?
  let texts (v : ν) : Option (List String) := (format.list? v).bind (·.mapM text)
  let number := format.number? UInt64.size
  return {
    watchedNamespace := ← optionalText format fields "namespace"
    clusterUrl := ← optionalText format fields "cluster_url"
    serviceUrl := ← withDefault fields "polycube_url" text "http://127.0.0.1:9000/polycube/v1"
    requestTimeout := ← withDefault fields "request_timeout" number 10
    virtualRange := ← optionalText format fields "vpods_range"
    ignoredNamespaces := ← withDefault fields "ignored_namespaces" texts ["kube-system"]
    maxRetries := ← withDefault fields "max_retries" (format.number? UInt32.size) 5
    baseDelay := ← withDefault fields "base_delay_ms" number 5
    maxDelay := ← withDefault fields "max_delay_ms" number 1000000
    idleTimeout := ← withDefault fields "idle_timeout" number 300
    sweepInterval := ← withDefault fields "janitor_interval" number 30 }

end

def ofJson? (j : Json) : Option Settings := do
  ofFields? jsonFormat (← Json.fields? fieldNames 5 j)

/-- The settings that a YAML text writes. No setting may be given twice. -/
def ofYaml? (text : String) : Option Settings := do
  let d ← Yaml.Document.parse? text
  let fields ← d.entries? d.root
  let once (name : String) : Bool := (fields.filter fun f => f.1 == name).length ≤ 1
  if fieldNames.all once then ofFields? (yamlFormat d) fields else none

def toJson (s : Settings) : Json :=
  .obj
    [("namespace", Json.ofOption .str s.watchedNamespace),
      ("cluster_url", Json.ofOption .str s.clusterUrl),
      ("polycube_url", .str s.serviceUrl),
      ("request_timeout", .int s.requestTimeout),
      ("vpods_range", Json.ofOption .str s.virtualRange),
      ("ignored_namespaces", Json.ofList .str s.ignoredNamespaces),
      ("max_retries", .int s.maxRetries),
      ("base_delay_ms", .int s.baseDelay),
      ("max_delay_ms", .int s.maxDelay),
      ("idle_timeout", .int s.idleTimeout),
      ("janitor_interval", .int s.sweepInterval)]

/-! ### What the settings mean -/

/-- Where the API server is; the inner `none` stands for a text that is no
URI. -/
def clusterUri (s : Settings) : Option (Option Uri) := s.clusterUrl.map Uri.parse?

def range (s : Settings) : Except CidrError (Option Ipv4Range) :=
  match s.virtualRange with
  | none => .ok none
  | some text => (Ipv4Range.parse text).map some

def backoff (s : Settings) : Backoff := ⟨s.baseDelay, s.maxDelay⟩

def requestSpan (s : Settings) : Nat := s.requestTimeout * 1000

def idleSpan (s : Settings) : Nat := s.idleTimeout * 1000

/-- How often firewalls without pods are looked for, in milliseconds. At most
once in a second. -/
def sweepSpan (s : Settings) : Nat := max s.sweepInterval 1 * 1000

end Settings

end PodFirewall
