import PodFirewall.Json.Decode
import PodFirewall.Time.Timestamp

/-!
The shapes of API objects.
An object from the API server is accepted as a whole or not at all: every
field that its schema names must have the right shape, also those nobody
reads. Fields that the schema does not name may hold anything, and a field
that is `null` counts as missing.
-/

namespace PodFirewall.Kube

/-- What the schema says of a value. -/
inductive Shape where
  | text
  | flag
  | int32
  | int64
  | int32OrText
  | time
  | anything
  | list (item : Shape)
  | table (item : Shape)
  | record (fields : List (String × Shape))
  /-- A field that may neither be missing nor `null`. -/
  | required (item : Shape)

def Shape.isRequired : Shape → Bool
  | .required _ => true
  | _ => false

def fitsInt64 (n : Int) : Bool := -9223372036854775808 ≤ n && n < 9223372036854775808

def isInt32 : Json → Bool
  | .int n => Json.fitsInt32 n
  | _ => false

def isNull : Json → Bool
  | .null => true
  | _ => false

def isText : Json → Bool
  | .str _ => true
  | _ => false

mutual

def Shape.admits : Shape → Json → Bool
  | .text, j => isText j
  | .flag, .bool _ => true
  | .int32, j => isInt32 j
  | .int64, .int n => fitsInt64 n
  | .int32OrText, j => isInt32 j || isText j
  | .time, .str s => (Timestamp.parse? s).isSome
  | .anything, _ => true
  | .list item, .arr elements => elements.all fun j => item.admits j
  | .table item, .obj members => members.all fun m => item.admits m.2
  | .record fields, .obj members => fieldsAdmit fields members
  | .required item, j => item.admits j
  | _, _ => false

/-- Whether every member with the name of a field is `null` or has the shape
of the field, and no required field is missing or `null`. -/
def fieldsAdmit : List (String × Shape) → List (String × Json) → Bool
  | [], _ => true
  | (name, shape) :: rest, members =>
    members.all (fun m =>
      m.1 != name || (match m.2 with
        | .null => true
        | j => shape.admits j)) &&
      (!shape.isRequired || members.any fun m => m.1 == name && !isNull m.2) &&
      fieldsAdmit rest members

end

/-- Whether a value is an API object with the given fields. Its version and
kind may be missing, but nothing else may stand in their place. -/
def admitsObject (version kind : String) (fields : List (String × Shape)) : Json → Bool
  | .obj members =>
    members.all (fun m =>
      (m.1 != "apiVersion" || (match m.2 with
        | .str s => s == version
        | _ => false)) &&
      (m.1 != "kind" || (match m.2 with
        | .str s => s == kind
        | _ => false))) &&
      fieldsAdmit fields members
  | _ => false

end PodFirewall.Kube
