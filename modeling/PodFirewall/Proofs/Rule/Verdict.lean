import PodFirewall.Resolve.Basic

/-!
What a list of rules does with a packet: the first rule that matches decides.
Which addresses a text of a rule covers is left open, so whatever is said here
holds of every reading of networks and addresses.
-/

namespace PodFirewall

/-- The first packet of a connection, with addresses of any kind. -/
structure Packet (α : Type) where
  src : α
  dst : α
  protocol : Protocol
  sport : UInt16
  dport : UInt16
  /-- Only packets with ports are looked at. -/
  hasPorts : protocol ≠ .icmp

/-- A packet that crosses a chain of a firewall, in the cluster that the rules
of the chain were made for. -/
structure Crossing (α : Type) where
  resolver : Resolver
  direction : Direction
  /-- Whether an address is one of those that a text stands for. -/
  covers : String → α → Bool
  packet : Packet α

namespace Rule

def Placeless (r : Rule) : Prop := r.src = none ∧ r.dst = none

def opening (action : RuleAction) : Rule :=
  { blank with action := action, conntrack := some .new }

theorem templates_eq (action : RuleAction) (ports : List PortMatch) :
    templates action ports =
      if ports.isEmpty then [opening action] else ports.map (opening action).withPorts := by
  unfold templates expandPorts
  split
  · rfl
  · exact List.append_nil _

theorem mem_templates {action : RuleAction} {ports : List PortMatch} {t : Rule}
    (h : t ∈ templates action ports) :
    t = opening action ∨ ∃ p ∈ ports, t = (opening action).withPorts p := by
  rw [templates_eq] at h
  split at h
  · exact .inl (List.mem_singleton.1 h)
  · obtain ⟨p, hp, rfl⟩ := List.mem_map.1 h
    exact .inr ⟨p, hp, rfl⟩

theorem placeless_templates (action : RuleAction) (ports : List PortMatch) :
    ∀ t ∈ templates action ports, t.Placeless := by
  intro t ht
  rcases mem_templates ht with rfl | ⟨p, -, rfl⟩ <;> exact ⟨rfl, rfl⟩

theorem action_of_mem_templates {action : RuleAction} {ports : List PortMatch} :
    ∀ t ∈ templates action ports, t.action = action := by
  intro t ht
  rcases mem_templates ht with rfl | ⟨p, -, rfl⟩ <;> rfl

theorem action_fillPeer (r : Rule) (d : Direction) (text : String) :
    (r.fillPeer d text).action = r.action := by
  cases d <;> rfl

end Rule

namespace Crossing

variable {α : Type}

def remote (x : Crossing α) : α :=
  match x.direction with
  | .incoming => x.packet.src
  | .outgoing => x.packet.dst

def meets (x : Crossing α) (text : String) : Bool := x.covers text x.remote

def fits (x : Crossing α) (r : Rule) : Bool :=
  r.src.all (x.covers · x.packet.src) && r.dst.all (x.covers · x.packet.dst) &&
    r.protocol.all (· == x.packet.protocol.name) && r.sport.all (· == x.packet.sport) &&
    r.dport.all (· == x.packet.dport) && r.conntrack.all (· == .new)

def verdict? (x : Crossing α) (rules : List Rule) : Option RuleAction :=
  (rules.find? x.fits).map (·.action)

def fitsPorts (x : Crossing α) (p : PortMatch) : Bool :=
  p.protocol.all (· == x.packet.protocol) && p.sport.all (· == x.packet.sport) &&
    p.dport.all (· == x.packet.dport)

/-- Whether the packet has the protocol and the ports of one of some matches, of
which there may be none at all. -/
def fitsSome (x : Crossing α) (ports : List PortMatch) : Bool :=
  ports.isEmpty || ports.any x.fitsPorts

variable {x : Crossing α} {rules : List Rule} {action : RuleAction}

theorem verdict?_append (x : Crossing α) (rules more : List Rule) :
    x.verdict? (rules ++ more) = (x.verdict? rules).or (x.verdict? more) := by
  rw [verdict?, List.find?_append, Option.map_or]
  rfl

/-- Of rules that all do the same, it only matters whether one matches. -/
theorem verdict?_of_action (h : ∀ r ∈ rules, r.action = action) :
    x.verdict? rules = if rules.any x.fits then some action else none := by
  unfold verdict?
  rcases hfind : rules.find? x.fits with _ | r
  · have hnone : rules.any x.fits = false := by
      rw [List.any_eq_false]
      exact fun r hr => by simpa using List.find?_eq_none.1 hfind r hr
    rw [hnone]
    rfl
  · have hsome : rules.any x.fits = true :=
      List.any_eq_true.2 ⟨r, List.mem_of_find?_eq_some hfind, List.find?_some hfind⟩
    rw [hsome, Option.map_some, h r (List.mem_of_find?_eq_some hfind)]
    rfl

theorem any_eraseDups (x : Crossing α) (rules : List Rule) :
    rules.eraseDups.any x.fits = rules.any x.fits := by
  rw [Bool.eq_iff_iff, List.any_eq_true, List.any_eq_true]
  simp only [List.mem_eraseDups]

/-! ### Templates filled in -/

theorem fits_fillPeer {r : Rule} (h : r.Placeless) (x : Crossing α) (text : String) :
    x.fits (r.fillPeer x.direction text) = (x.meets text && x.fits r) := by
  obtain ⟨hsrc, hdst⟩ := h
  unfold fits meets remote Rule.fillPeer Rule.fill
  cases x.direction <;> simp [hsrc, hdst, Bool.and_assoc]

theorem any_fillAll (h : ∀ r ∈ rules, r.Placeless) (x : Crossing α) (text : String) :
    (Resolver.fillAll x.direction rules text).any x.fits = (x.meets text && rules.any x.fits) := by
  unfold Resolver.fillAll
  induction rules with
  | nil => simp
  | cons r rest ih =>
    obtain ⟨hr, hrest⟩ := List.forall_mem_cons.1 h
    rw [List.map_cons, List.any_cons, List.any_cons, ih hrest, fits_fillPeer hr,
      Bool.and_or_distrib_left]

theorem action_of_mem_fillAll {d : Direction} {text : String} (h : ∀ r ∈ rules, r.action = action) :
    ∀ r ∈ Resolver.fillAll d rules text, r.action = action := by
  intro r hr
  obtain ⟨t, ht, rfl⟩ := List.mem_map.1 hr
  exact (t.action_fillPeer d text).trans (h t ht)

theorem name_beq (p q : Protocol) : (p.name == q.name) = (p == q) := by
  cases p <;> cases q <;> rfl

theorem fits_opening_withPorts (x : Crossing α) (action : RuleAction) (p : PortMatch) :
    x.fits ((Rule.opening action).withPorts p) = x.fitsPorts p := by
  unfold fits fitsPorts
  rcases p with ⟨protocol, sport, dport⟩
  cases protocol <;> simp [Rule.opening, Rule.withPorts, Rule.blank, name_beq]

theorem any_templates (x : Crossing α) (action : RuleAction) (ports : List PortMatch) :
    (Rule.templates action ports).any x.fits = x.fitsSome ports := by
  rw [Rule.templates_eq, fitsSome]
  split
  · rename_i hnone
    rw [hnone]
    rfl
  · rename_i hsome
    rw [Bool.eq_false_iff.2 hsome, Bool.false_or, List.any_map]
    congr 1
    exact funext fun p => fits_opening_withPorts x action p

end Crossing

end PodFirewall
