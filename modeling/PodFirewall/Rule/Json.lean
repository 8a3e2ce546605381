import PodFirewall.Rule.Basic

/-!
The JSON form of rules, as the packet-filter service reads and lists them.
The id and the action are always written, the other fields only when they are
set; a rule is read back from either form of a record.
-/

namespace PodFirewall

namespace RuleAction

def ofName? : String → Option RuleAction
  | "drop" => some drop
  | "forward" => some forward
  | _ => none

def toJson (a : RuleAction) : Json := .str a.name

def ofJson? (j : Json) : Option RuleAction := (Json.variantName? j).bind ofName?

end RuleAction

namespace Conntrack

def name : Conntrack → String
  | new => "new"
  | established => "established"
  | related => "related"
  | invalid => "invalid"

def ofName? : String → Option Conntrack
  | "new" => some new
  | "established" => some established
  | "related" => some related
  | "invalid" => some invalid
  | _ => none

def ofJson? (j : Json) : Option Conntrack := (Json.variantName? j).bind ofName?

end Conntrack

namespace Rule

/-- The number of ids: they are words of 32 bits. -/
def idCount : Nat := 4294967296

def idToJson (id : Nat) : Json := .int (id % idCount : Nat)

def portToJson (p : UInt16) : Json := .int p.toNat

def toJson (r : Rule) : Json :=
  .obj
    (("id", idToJson r.id) ::
      (Json.optional "src" (r.src.map .str) ++ Json.optional "dst" (r.dst.map .str) ++
        Json.optional "l4proto" (r.protocol.map .str) ++
        Json.optional "sport" (r.sport.map portToJson) ++
        Json.optional "dport" (r.dport.map portToJson) ++
        (("action", r.action.toJson) ::
          (Json.optional "conntrack" (r.conntrack.map fun c => .str c.name) ++
            Json.optional "description" (r.description.map .str)))))

def fieldNames : List String :=
  ["id", "src", "dst", "l4proto", "sport", "dport", "action", "conntrack", "description"]

def ofJson? (j : Json) : Option Rule := do
  let fields ← Json.fields? fieldNames 0 j
  return {
    id := ← Json.withDefault fields "id" (Json.natBelow? idCount) 0
    src := ← Json.maybe fields "src" Json.str?
    dst := ← Json.maybe fields "dst" Json.str?
    protocol := ← Json.maybe fields "l4proto" Json.str?
    sport := ← Json.maybe fields "sport" Json.uint16?
    dport := ← Json.maybe fields "dport" Json.uint16?
    action := ← Json.withDefault fields "action" RuleAction.ofJson? .drop
    conntrack := ← Json.maybe fields "conntrack" Conntrack.ofJson?
    description := ← Json.maybe fields "description" Json.str? }

end Rule

end PodFirewall
