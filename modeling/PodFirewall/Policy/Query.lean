import PodFirewall.Kube.Metadata

/-!
Queries on pods and namespaces, by name or by labels.
Where a query may be missing, a missing one matches every object.
-/

namespace PodFirewall

inductive Query where
  | name (n : String)
  | labels (l : Labels)
  deriving DecidableEq

namespace Query

/-- The query for an optional name and optional labels. A name counts before
labels; if both are missing or empty, every object is meant. -/
def build? (name : Option String) (labels : Option Labels) : Option Query :=
  match name.filter fun n => !n.isEmpty with
  | some n => some (.name n)
  | none => (labels.filter fun l => !l.isEmpty).map .labels

def «matches» (q : Query) (objectName : String) (objectLabels : Labels) : Bool :=
  match q with
  | .name n => n == objectName
  | .labels l => l.contained objectLabels

def allows (q : Option Query) (objectName : String) (objectLabels : Labels) : Bool :=
  match q with
  | none => true
  | some q => q.matches objectName objectLabels

def labels? : Query → Option Labels
  | .labels l => some l
  | .name _ => none

def text : Query → String
  | .name n => "name=" ++ n
  | .labels l => "labels=" ++ ",".intercalate (l.toList.map fun e => e.1 ++ ":" ++ e.2)

end Query

end PodFirewall
