/-!
JSON values.
An object keeps its members in the order they were written, repeated names
included, because two of the formats read here differ in what they make of a
repeated name.
-/

namespace PodFirewall

inductive Json where
  | null
  | bool (b : Bool)
  /-- A number written without fraction and exponent, other than `-0`. -/
  | int (n : Int)
  /-- Any other number, by its text. -/
  | real (text : String)
  | str (s : String)
  | arr (elements : List Json)
  | obj (members : List (String × Json))
  deriving Inhabited

namespace Json

/-- The first value with a name among the members of an object. -/
def lookup (members : List (String × Json)) (name : String) : Option Json :=
  (members.find? fun m => m.1 == name).map (·.2)

/-- The value of a member; `none` for a missing member and for a value that is
no object. -/
def get? (name : String) : Json → Option Json
  | .obj members => lookup members name
  | _ => none

def getD (j : Json) (name : String) : Json := (j.get? name).getD .null

/-- A member that is written only if its value is there. -/
def optional (name : String) : Option Json → List (String × Json)
  | some j => [(name, j)]
  | none => []

def ofOption {α : Type} (f : α → Json) : Option α → Json
  | some a => f a
  | none => .null

def ofList {α : Type} (f : α → Json) (l : List α) : Json := .arr (l.map f)

/-! ### Looking up in a list of members that is put together from parts -/

@[simp] theorem lookup_nil (name : String) : lookup [] name = none := rfl

@[simp] theorem lookup_cons_self (name : String) (j : Json) (rest : List (String × Json)) :
    lookup ((name, j) :: rest) name = some j := by
  simp [lookup]

theorem lookup_cons_of_ne {name other : String} (j : Json) (rest : List (String × Json))
    (h : other ≠ name) : lookup ((other, j) :: rest) name = lookup rest name := by
  have : (other == name) = false := by simpa using h
  simp [lookup, this]

theorem lookup_append (l l' : List (String × Json)) (name : String) :
    lookup (l ++ l') name = (lookup l name).or (lookup l' name) := by
  simp [lookup, List.find?_append, Option.map_or]

@[simp] theorem lookup_optional_self (name : String) (j : Option Json) :
    lookup (optional name j) name = j := by
  cases j <;> simp [optional]

theorem lookup_optional_of_ne {name other : String} (j : Option Json) (h : other ≠ name) :
    lookup (optional other j) name = none := by
  cases j with
  | none => rfl
  | some j => rw [optional, lookup_cons_of_ne j [] h, lookup_nil]

end Json

end PodFirewall
