/-!
YAML values, as far as settings need them.
Scalars are kept as they are written, because what a scalar means depends on
who reads it: a plain `12` is a number to one reader and a text to another.
-/

namespace PodFirewall

inductive ScalarStyle where
  | plain
  | quoted
  /-- A block whose lines are kept. -/
  | literal
  /-- A block whose lines are joined. -/
  | folded
  deriving DecidableEq

structure Scalar where
  style : ScalarStyle
  tag : Option String
  text : String
  deriving DecidableEq

inductive Yaml where
  | scalar (s : Scalar)
  | seq (items : List Yaml)
  | map (entries : List (Yaml × Yaml))
  /-- Another value of the document, by the number of its anchor. -/
  | aliasOf (target : Nat)
  deriving Inhabited

namespace Scalar

/-- The scalar where nothing is written. -/
def nothing : Scalar := ⟨.plain, none, ""⟩

def nullTag : String := "tag:yaml.org,2002:null"

def numberTag : String := "tag:yaml.org,2002:int"

def isEmpty (s : Scalar) : Bool := s.style == .plain && s.text.isEmpty

def isNullWord (text : String) : Bool :=
  text == "~" || text == "null" || text == "Null" || text == "NULL"

/-- Whether a scalar stands for a value or for null; `none` for one that is
tagged as null and is not. A plain scalar with any other tag is a value. -/
def isPresent? (s : Scalar) : Option Bool :=
  match s.style, s.tag with
  | .plain, some tag =>
    if tag = nullTag then if isNullWord s.text then some false else none else some true
  | .plain, none => some !(s.text.isEmpty || isNullWord s.text)
  | _, _ => some true

/-! ### Numbers -/

def digitValue (c : Char) : Nat :=
  if c.isDigit then c.toNat - '0'.toNat else c.toLower.toNat - 'a'.toNat + 10

def isDigitTo (base : Nat) (c : Char) : Bool := c.isAlphanum && digitValue c < base

def number? (base : Nat) (digits : List Char) : Option Nat :=
  if !digits.isEmpty && digits.all (isDigitTo base) then
    some (digits.foldl (fun n c => n * base + digitValue c) 0)
  else none

/-- Whether a scalar may write a number: any plain one, and a literal block
that is tagged as a number. -/
def mayBeNumber (s : Scalar) : Bool :=
  s.style == .plain || (s.style == .literal && s.tag == some numberTag)

/-- The whole number that a scalar writes: decimal without superfluous zeros,
hexadecimal, octal or binary, perhaps with a plus sign in front. -/
def nat? (s : Scalar) : Option Nat :=
  if s.mayBeNumber then
    let cs := s.text.toList
    match if cs.head? = some '+' then cs.tail else cs with
    | '0' :: 'x' :: digits => number? 16 digits
    | '0' :: 'o' :: digits => number? 8 digits
    | '0' :: 'b' :: digits => number? 2 digits
    | '0' :: _ :: _ => none
    | digits => number? 10 digits
  else none

end Scalar

end PodFirewall
