import PodFirewall.Yaml.Node

/-!
Reading a YAML text as a value.
An alias stands for the value that its anchor was given to last before it.
Anchors are numbered by how many names there are so far, so a name that is
given away anew shares its number with the next new name; of the values with
one number, the one that begins last is meant.
-/

namespace PodFirewall.Yaml

structure Anchored where
  target : Nat
  /-- The number of anchors in front of its own. -/
  index : Nat
  value : Yaml

structure Anchors where
  /-- The names with their numbers, the latest first. -/
  names : List (String × Nat)
  count : Nat
  size : Nat
  /-- The values that have ended. -/
  values : List Anchored

namespace Anchors

def empty : Anchors := ⟨[], 0, 0, []⟩

def find? (a : Anchors) (name : String) : Option Nat :=
  (a.names.find? fun n => n.1 == name).map (·.2)

/-- Gives a name to the value that begins here. -/
def enter (a : Anchors) : Option String → Anchors
  | none => a
  | some name =>
    let count := if (a.find? name).isSome then a.count else a.count + 1
    { a with names := (name, a.count) :: a.names, count, size := a.size + 1 }

/-- Notes a value that ends here, given its name and the anchors before it. -/
def leave (a : Anchors) (before : Anchors) (name : Option String) (value : Yaml) : Anchors :=
  match name with
  | none => a
  | some _ => { a with values := ⟨before.count, before.size, value⟩ :: a.values }

end Anchors

mutual

/-- The value that a node stands for behind some anchors; `none` if an alias
names none of them. -/
def Node.link? (a : Anchors) : Node → Option (Yaml × Anchors)
  | .aliasOf name => (a.find? name).map fun target => (.aliasOf target, a)
  | .scalar anchor s =>
    let value := Yaml.scalar s
    some (value, (a.enter anchor).leave a anchor value)
  | .seq anchor items =>
    (linkItems? (a.enter anchor) items).map fun r =>
      let value := Yaml.seq r.1
      (value, r.2.leave a anchor value)
  | .map anchor entries =>
    (linkEntries? (a.enter anchor) entries).map fun r =>
      let value := Yaml.map r.1
      (value, r.2.leave a anchor value)

def linkItems? (a : Anchors) : List Node → Option (List Yaml × Anchors)
  | [] => some ([], a)
  | item :: rest => do
    let (item, a) ← item.link? a
    let (rest, a) ← linkItems? a rest
    return (item :: rest, a)

def linkEntries? (a : Anchors) : List (Node × Node) → Option (List (Yaml × Yaml) × Anchors)
  | [] => some ([], a)
  | (key, value) :: rest => do
    let (key, a) ← key.link? a
    let (value, a) ← value.link? a
    let (rest, a) ← linkEntries? a rest
    return ((key, value) :: rest, a)

end

/-- A value together with those that its aliases stand for. -/
structure Document where
  root : Yaml
  anchored : List Anchored

namespace Document

def parse? (text : String) : Option Document := do
  let cs := text.toList
  if cs.all isAllowed then
    let (root, a) ← (← Node.ofTokens? (← tokens? (withNewlines cs))).link? .empty
    return ⟨root, a.values⟩
  else none

/-! ### What values mean -/

variable (d : Document)

/-- The value with a number that begins last. -/
def target? (target : Nat) : Option Yaml :=
  let later (best : Option Anchored) (a : Anchored) : Option Anchored :=
    if a.target = target ∧ best.all (·.index < a.index) then some a else best
  (d.anchored.foldl later none).map (·.value)

/-- The value itself, in place of an alias for it. -/
def actual (v : Yaml) : Yaml :=
  match v with
  | .aliasOf n => (d.target? n).getD v
  | v => v

def optional? (v : Yaml) : Option (Option Yaml) :=
  match d.actual v with
  | .scalar s => s.isPresent?.map fun yes => if yes then some v else none
  | _ => some (some v)

/-- The text of a scalar, whatever it looks like. -/
def text? (v : Yaml) : Option String :=
  match d.actual v with
  | .scalar s => some s.text
  | _ => none

def nat? (v : Yaml) : Option Nat :=
  match d.actual v with
  | .scalar s => s.nat?
  | _ => none

/-- The items of a sequence. Where nothing is written there are none. -/
def list? (v : Yaml) : Option (List Yaml) :=
  match d.actual v with
  | .seq items => some items
  | .scalar s => if s.isEmpty then some [] else none
  | _ => none

def entries? (v : Yaml) : Option (List (String × Yaml)) :=
  match d.actual v with
  | .map entries => entries.mapM fun e => (d.text? e.1).map fun key => (key, e.2)
  | .scalar s => if s.isEmpty then some [] else none
  | _ => none

end Document

end PodFirewall.Yaml
