import PodFirewall.Backend.Basic

/-!
Faults that are switched on and off by their labels.
A label names a kind of call, with the chain or the id it is about.
-/

namespace PodFirewall

def Call.label : Call → String
  | .find => "exists"
  | .create => "create"
  | .destroy => "destroy"
  | .read c => "read:" ++ c.name
  | .append c _ => "append:" ++ c.name
  | .delete _ id => "delete:" ++ toString id
  | .setDefault c _ => "default:" ++ c.name
  | .commit c => "apply:" ++ c.name

namespace Fault

/-- The fault of a call whose label is switched on: changes of rules are
refused, all other calls are lost. -/
def labelled (labels : List String) (_ : Nat) (_ : String) (call : Call) : Option Fault :=
  if labels.contains call.label then
    match call with
    | .append _ _ | .delete _ _ => some .refused
    | _ => some (.lost call.label)
  else none

def switch (labels on off : List String) : List String :=
  (labels ++ on).filter fun l => !off.contains l

end Fault

end PodFirewall
