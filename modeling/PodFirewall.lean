import PodFirewall.Address.Cidr
import PodFirewall.Address.Ipv4
import PodFirewall.Address.Ipv6
import PodFirewall.Address.Uri
import PodFirewall.Backend.Basic
import PodFirewall.Backend.Call
import PodFirewall.Backend.Faults
import PodFirewall.Backend.Rest
import PodFirewall.Cluster.Basic
import PodFirewall.Cluster.Json
import PodFirewall.Cluster.Pod
import PodFirewall.Cluster.Service
import PodFirewall.Controller.Basic
import PodFirewall.Controller.Rehearsal
import PodFirewall.Data.OrdMap
import PodFirewall.Data.Pairs
import PodFirewall.Firewall.Fleet
import PodFirewall.Firewall.Ledger
import PodFirewall.Firewall.Site
import PodFirewall.Hash.Xxh3
import PodFirewall.Json.Basic
import PodFirewall.Json.Decode
import PodFirewall.Json.Parser
import PodFirewall.Json.Printer
import PodFirewall.Json.Token
import PodFirewall.Kube.Metadata
import PodFirewall.Kube.Resource
import PodFirewall.Kube.Schema
import PodFirewall.Kube.Shape
import PodFirewall.Main
import PodFirewall.Manager.Basic
import PodFirewall.Manager.Operator
import PodFirewall.NetworkPolicy.Basic
import PodFirewall.NetworkPolicy.Records
import PodFirewall.Policy.Basic
import PodFirewall.Policy.Json
import PodFirewall.Policy.Order
import PodFirewall.Policy.Query
import PodFirewall.Policy.Record
import PodFirewall.Policy.Selection
import PodFirewall.PolycubePolicy.Basic
import PodFirewall.PolycubePolicy.Json
import PodFirewall.PolycubePolicy.Records
import PodFirewall.Proofs.Address.Dotted
import PodFirewall.Proofs.Address.Virtual
import PodFirewall.Proofs.Backend.Calls
import PodFirewall.Proofs.Controller.Attempts
import PodFirewall.Proofs.Controller.Coverage
import PodFirewall.Proofs.Controller.Removal
import PodFirewall.Proofs.Controller.Succession
import PodFirewall.Proofs.Firewall.Apart
import PodFirewall.Proofs.Firewall.Canonical
import PodFirewall.Proofs.Firewall.Commitment
import PodFirewall.Proofs.Firewall.Creation
import PodFirewall.Proofs.Firewall.Defaults
import PodFirewall.Proofs.Firewall.Departure
import PodFirewall.Proofs.Firewall.Disturbance
import PodFirewall.Proofs.Firewall.Edits
import PodFirewall.Proofs.Firewall.Entries
import PodFirewall.Proofs.Firewall.Evaluation
import PodFirewall.Proofs.Firewall.Exactness
import PodFirewall.Proofs.Firewall.Exceptions
import PodFirewall.Proofs.Firewall.Filing
import PodFirewall.Proofs.Firewall.Footprint
import PodFirewall.Proofs.Firewall.Identity
import PodFirewall.Proofs.Firewall.Known
import PodFirewall.Proofs.Firewall.Laid
import PodFirewall.Proofs.Firewall.Layout
import PodFirewall.Proofs.Firewall.Leftovers
import PodFirewall.Proofs.Firewall.Ranking
import PodFirewall.Proofs.Firewall.Repair
import PodFirewall.Proofs.Firewall.Reversal
import PodFirewall.Proofs.Firewall.Roster
import PodFirewall.Proofs.Firewall.Runs
import PodFirewall.Proofs.Firewall.Stops
import PodFirewall.Proofs.Firewall.Sweep
import PodFirewall.Proofs.Firewall.Takeover
import PodFirewall.Proofs.Json.Records
import PodFirewall.Proofs.Json.Rendering
import PodFirewall.Proofs.Json.RoundTrip
import PodFirewall.Proofs.Manager.Agreement
import PodFirewall.Proofs.Manager.Convergence
import PodFirewall.Proofs.Manager.Course
import PodFirewall.Proofs.Manager.Currency
import PodFirewall.Proofs.Manager.Deployment
import PodFirewall.Proofs.Manager.Exchange
import PodFirewall.Proofs.Manager.Fitting
import PodFirewall.Proofs.Manager.Isolation
import PodFirewall.Proofs.Manager.Joining
import PodFirewall.Proofs.Manager.Quiescence
import PodFirewall.Proofs.Manager.Reach
import PodFirewall.Proofs.Manager.Recall
import PodFirewall.Proofs.Manager.Refresh
import PodFirewall.Proofs.Manager.Steps
import PodFirewall.Proofs.NetworkPolicy.Addition
import PodFirewall.Proofs.NetworkPolicy.Meaning
import PodFirewall.Proofs.NetworkPolicy.Permission
import PodFirewall.Proofs.Policy.Directions
import PodFirewall.Proofs.Policy.Insertion
import PodFirewall.Proofs.Policy.Naming
import PodFirewall.Proofs.Policy.Records
import PodFirewall.Proofs.Policy.Sequence
import PodFirewall.Proofs.PolycubePolicy.Ports
import PodFirewall.Proofs.PolycubePolicy.ServicePorts
import PodFirewall.Proofs.PolycubePolicy.WireForm
import PodFirewall.Proofs.Queue.Keys
import PodFirewall.Proofs.Queue.Pauses
import PodFirewall.Proofs.Queue.Workers
import PodFirewall.Proofs.Resolve.Locality
import PodFirewall.Proofs.Resolve.Peers
import PodFirewall.Proofs.Resolve.Repetition
import PodFirewall.Proofs.Resolve.Translation
import PodFirewall.Proofs.Resolve.Twins
import PodFirewall.Proofs.Rule.Verdict
import PodFirewall.Proofs.Text.Decimal
import PodFirewall.Proofs.Watch.Reports
import PodFirewall.Proofs.Watch.Store
import PodFirewall.Queue.Backoff
import PodFirewall.Queue.Basic
import PodFirewall.Queue.Retry
import PodFirewall.Resolve.Basic
import PodFirewall.Resolve.Service
import PodFirewall.Rule.Basic
import PodFirewall.Rule.Json
import PodFirewall.Rule.Template
import PodFirewall.Settings.Basic
import PodFirewall.Text.Blank
import PodFirewall.Text.Decimal
import PodFirewall.Text.Hidden
import PodFirewall.Text.Quoted
import PodFirewall.Time.Span
import PodFirewall.Time.Timestamp
import PodFirewall.Watch.Change
import PodFirewall.Watch.Json
import PodFirewall.Watch.Store
import PodFirewall.Yaml.Basic
import PodFirewall.Yaml.Cursor
import PodFirewall.Yaml.Document
import PodFirewall.Yaml.Node
import PodFirewall.Yaml.Scalar
import PodFirewall.Yaml.Tag
import PodFirewall.Yaml.Token
