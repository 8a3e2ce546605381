import PodFirewall.Kube.Shape

/-!
What all API objects have in common: their metadata, and the key that names an
object among those of its kind.
-/

namespace PodFirewall

/-- Names with values, as objects carry them and queries ask for them. -/
abbrev Labels := OrdMap String String

namespace Labels

/-- Whether all labels of the first set are in the second, with the same
values. -/
def contained (needle haystack : Labels) : Bool :=
  needle.toList.all fun e => haystack.get? e.1 == some e.2

def toJson (l : Labels) : Json := .obj (l.toList.map fun e => (e.1, .str e.2))

def ofJson? (j : Json) : Option Labels := Json.map? Json.str? j

end Labels

/-- The key of an object among those of its kind. An object that lives in no
namespace has an empty one. -/
structure ObjectKey where
  namespaceName : String
  name : String
  deriving DecidableEq

namespace ObjectKey

open Std

/-- Keys are ordered by namespace, then by name. -/
instance : Ord ObjectKey where
  compare := compareLex (compareOn namespaceName) (compareOn name)

instance : TransOrd ObjectKey :=
  inferInstanceAs (TransCmp (compareLex (compareOn namespaceName) (compareOn name)))

instance : LawfulEqOrd ObjectKey where
  compare_self {_} := ReflOrd.compare_self
  eq_of_compare {a b} h := by
    have h' : (compare a.namespaceName b.namespaceName).then (compare a.name b.name) = .eq := h
    obtain ⟨h1, h2⟩ := Ordering.then_eq_eq.1 h'
    have e1 := LawfulEqCmp.eq_of_compare h1
    have e2 := LawfulEqCmp.eq_of_compare h2
    cases a; cases b; cases e1; cases e2; rfl

/-- The key as messages show it: the name, behind the namespace if there is
one. -/
def text (k : ObjectKey) : String :=
  if k.namespaceName.isEmpty then k.name else k.namespaceName ++ "/" ++ k.name

end ObjectKey

namespace Kube

structure Metadata where
  name : Option String
  namespaceName : Option String
  labels : Labels
  /-- The version of the object's content, as its server counts. -/
  version : Option String
  created : Option Timestamp
  deleting : Bool
  deriving DecidableEq

structure Object (α : Type) where
  metadata : Metadata
  body : α
  deriving DecidableEq

/-! ### Reading fields whose shape is known -/

def textAt? (j : Json) (name : String) : Option String := (j.get? name).bind Json.str?

def labelsAt (j : Json) (name : String) : Labels :=
  ((j.get? name).bind (Json.map? Json.str?)).getD ∅

def elementsAt? (j : Json) (name : String) : Option (List Json) :=
  match j.get? name with
  | some (.arr elements) => some elements
  | _ => none

def textsAt? (j : Json) (name : String) : Option (List String) :=
  (elementsAt? j name).map fun l => l.filterMap Json.str?

/-- The object at a field; `none` also for `null`. -/
def recordAt? (j : Json) (name : String) : Option Json :=
  match j.get? name with
  | some (.obj members) => some (.obj members)
  | _ => none

def metadataShape : Shape :=
  .record
    [ ("annotations", .table .text), ("creationTimestamp", .time),
      ("deletionGracePeriodSeconds", .int64), ("deletionTimestamp", .time),
      ("finalizers", .list .text), ("generateName", .text), ("generation", .int64),
      ("labels", .table .text),
      ("managedFields", .list (.record
        [ ("apiVersion", .text), ("fieldsType", .text), ("fieldsV1", .anything),
          ("manager", .text), ("operation", .text), ("subresource", .text),
          ("time", .time) ])),
      ("name", .text), ("namespace", .text),
      ("ownerReferences", .list (.record
        [ ("apiVersion", .text), ("blockOwnerDeletion", .flag), ("controller", .flag),
          ("kind", .text), ("name", .text), ("uid", .text) ])),
      ("resourceVersion", .text), ("selfLink", .text), ("uid", .text) ]

namespace Metadata

def ofShaped (j : Json) : Metadata where
  name := textAt? j "name"
  namespaceName := textAt? j "namespace"
  labels := labelsAt j "labels"
  version := textAt? j "resourceVersion"
  created := (textAt? j "creationTimestamp").bind Timestamp.parse?
  deleting := (textAt? j "deletionTimestamp").isSome

def ofJson? (j : Json) : Option Metadata :=
  if metadataShape.admits j then some (ofShaped j) else none

/-- The key of an object. An object without a name has none. -/
def key? (m : Metadata) : Option ObjectKey :=
  m.name.map fun name => ⟨m.namespaceName.getD "", name⟩

end Metadata

/-- The object with given fields that a value writes, its body read by a
function of the metadata and the whole value. -/
def objectOfJson? {α : Type} (version kind : String) (fields : List (String × Shape))
    (body : Metadata → Json → α) (j : Json) : Option (Object α) :=
  if admitsObject version kind (("metadata", metadataShape) :: fields) j then
    let metadata := Metadata.ofShaped (j.getD "metadata")
    some ⟨metadata, body metadata j⟩
  else none

end Kube

end PodFirewall
