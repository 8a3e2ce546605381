import PodFirewall.Json.Decode
import PodFirewall.Watch.Store

/-!
The JSON form of watch events.
A message names the event and carries its object; a message named `list`
carries all objects of a listing and stands for its events.
-/

namespace PodFirewall.WatchEvent

def ofJson? {α : Type} (read : Json → Option (Kube.Object α)) (j : Json) :
    Option (List (WatchEvent α)) := do
  match j.getD "event" with
  | .str "init" => return [init]
  | .str "init_apply" => return [initApply (← read (j.getD "object"))]
  | .str "init_done" => return [initDone]
  | .str "apply" => return [apply (← read (j.getD "object"))]
  | .str "delete" => return [delete (← read (j.getD "object"))]
  | .str "list" =>
    return Store.listingOf ((← Json.nullable? (Json.list? read) (j.getD "objects")).getD [])
  | _ => none

end PodFirewall.WatchEvent
