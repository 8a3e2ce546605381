import PodFirewall.Data.OrdMap
import PodFirewall.Json.Basic

/-!
Reading typed values out of JSON.
Every reader answers `none` for a value that does not fit; nothing is coerced.
A record may be written as an object, by the names of its fields, or as an
array, by their places.
-/

namespace PodFirewall.Json

variable {α : Type}

def str? : Json → Option String
  | .str s => some s
  | _ => none

def bool? : Json → Option Bool
  | .bool b => some b
  | _ => none

def int? : Json → Option Int
  | .int n => some n
  | _ => none

def natBelow? (bound : Nat) : Json → Option Nat
  | .int (.ofNat n) => if n < bound then some n else none
  | _ => none

def uint16? (j : Json) : Option UInt16 := (natBelow? UInt16.size j).map UInt16.ofNat

def fitsInt32 (n : Int) : Bool := -2147483648 ≤ n && n < 2147483648

def int32? (j : Json) : Option Int32 :=
  match j with
  | .int n => if fitsInt32 n then some (Int32.ofInt n) else none
  | _ => none

def list? (f : Json → Option α) : Json → Option (List α)
  | .arr elements => elements.mapM f
  | _ => none

/-- A map from texts whose values all fit; the last of several values of one
name counts. -/
def map? (f : Json → Option α) : Json → Option (OrdMap String α)
  | .obj members => do
    return OrdMap.ofList (← members.mapM fun m => (f m.2).map fun a => (m.1, a))
  | _ => none

def nullable? (f : Json → Option α) : Json → Option (Option α)
  | .null => some none
  | j => (f j).map some

/-- The text of a member; the empty one if the member is missing or `null`. -/
def textAt? (j : Json) (name : String) : Option String :=
  (nullable? str? (j.getD name)).map (·.getD "")

/-! ### Records -/

/-- The fields of a record with the given field names, by name. An object
must not repeat a field; an array must have an element for the first `least`
fields and none beyond the last. -/
def fields? (names : List String) (least : Nat) : Json → Option (List (String × Json))
  | .obj members =>
    if names.all fun name => (members.filter fun m => m.1 == name).length ≤ 1 then
      some members
    else none
  | .arr elements =>
    if least ≤ elements.length ∧ elements.length ≤ names.length then
      some (names.zip elements)
    else none
  | _ => none

def required (fields : List (String × Json)) (name : String) (f : Json → Option α) :
    Option α :=
  (lookup fields name).bind f

/-- A field that takes a default if it is missing, but not if it is `null`. -/
def withDefault (fields : List (String × Json)) (name : String) (f : Json → Option α)
    (default : α) : Option α :=
  match lookup fields name with
  | none => some default
  | some j => f j

def maybe (fields : List (String × Json)) (name : String) (f : Json → Option α) :
    Option (Option α) :=
  match lookup fields name with
  | none => some none
  | some j => nullable? f j

/-- The name of an enumeration value: a text, or an object whose only member
has that name and no content. -/
def variantName? : Json → Option String
  | .str s => some s
  | .obj [(s, .null)] => some s
  | _ => none

end PodFirewall.Json
