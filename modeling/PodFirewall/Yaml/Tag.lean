import PodFirewall.Yaml.Scalar

/-!
The names that a YAML text gives to its values: anchors, tags, and the
directives that say what the handles of tags stand for.
-/

namespace PodFirewall.Yaml

/-! ### Anchors -/

def isNameChar (c : Char) : Bool := c.isAlphanum || c == '_' || c == '-'

def anchorName? (cs : List Char) : Option (String × List Char) :=
  let name := cs.takeWhile isNameChar
  let rest := cs.dropWhile isNameChar
  if !name.isEmpty && (atSpace rest || atAny "?:,]\x7d%@\x60" rest) then
    some (String.ofList name, rest)
  else none

/-! ### Tags -/

/-- A tag as it is written: a handle, which may be empty, and what follows
it. -/
structure TagText where
  handle : String
  suffix : String
  deriving DecidableEq

def isTagChar (inBrackets : Bool) (c : Char) : Bool :=
  isNameChar c || atAny ";/?:@&=+$.!~*'()" [c] || (inBrackets && atAny ",[]" [c])

def octetsBehind? (octet : Nat) : Option Nat :=
  if octet < 0x80 then some 0
  else if octet < 0xC0 then none
  else if octet < 0xE0 then some 1
  else if octet < 0xF0 then some 2
  else if octet < 0xF8 then some 3
  else none

/-- The characters of a tag, and what follows them. Behind a percent sign
stands an octet; the number of those that still belong to one character is
kept. -/
def tagChars (inBrackets : Bool) (done : List Char) (more : Nat) :
    List Char → Option (List Char × List Char)
  | [] => if more = 0 then some (done.reverse, []) else none
  | '%' :: a :: b :: rest => do
    let octet ← Scalar.number? 16 [a, b]
    let more ←
      if more = 0 then octetsBehind? octet
      else if 0x80 ≤ octet && octet < 0xC0 then some (more - 1)
      else none
    tagChars inBrackets (Char.ofNat octet :: done) more rest
  | c :: rest =>
    if c == '%' || more != 0 then none
    else if isTagChar inBrackets c then tagChars inBrackets (c :: done) 0 rest
    else some (done.reverse, c :: rest)

/-- At least one character of a tag, and what follows them. A zero octet ends
the tag. -/
def tagPart? (inBrackets : Bool) (cs : List Char) : Option (String × List Char) := do
  let (text, rest) ← tagChars inBrackets [] 0 cs
  if text.isEmpty then none else some (String.ofList (text.takeWhile (· != '\x00')), rest)

def tag? (cs : List Char) : Option (TagText × List Char) :=
  match cs with
  | '<' :: rest => do
    match ← tagPart? true rest with
    | (text, '>' :: rest) => some (⟨"", text⟩, rest)
    | _ => none
  | cs =>
    match cs.dropWhile isNameChar with
    | '!' :: rest =>
      let handle := '!' :: cs.takeWhile isNameChar ++ ['!']
      (tagPart? false rest).map fun r => (⟨String.ofList handle, r.1⟩, r.2)
    | _ =>
      match cs with
      | c :: _ =>
        if isTagChar false c || c == '%' then
          (tagPart? false cs).map fun r =>
            (if r.1.isEmpty then ⟨"", "!"⟩ else ⟨"!", r.1⟩, r.2)
        else some (⟨"", "!"⟩, cs)
      | [] => some (⟨"", "!"⟩, cs)

/-! ### Directives -/

inductive Directive where
  | version (major minor : Nat)
  | handle (handle front : String)

/-- A number of at most nine digits, and what follows it. -/
def versionNumber? (cs : List Char) : Option (Nat × List Char) := do
  let digits := cs.takeWhile Char.isDigit
  if digits.length ≤ 9 then
    return (← Scalar.number? 10 digits, cs.dropWhile Char.isDigit)
  else none

def handle? : List Char → Option (String × List Char)
  | '!' :: cs =>
    let name := cs.takeWhile isNameChar
    match cs.dropWhile isNameChar with
    | '!' :: rest => some (String.ofList ('!' :: name ++ ['!']), rest)
    | rest => if name.isEmpty then some ("!", rest) else none
  | _ => none

def directive? (cs : List Char) : Option (Directive × List Char) := do
  let name := String.ofList (cs.takeWhile isNameChar)
  let rest := cs.dropWhile isNameChar
  if !atSpace rest then none
  else if name = "YAML" then
    match ← versionNumber? (skipGap rest) with
    | (major, '.' :: rest) =>
      let (minor, rest) ← versionNumber? rest
      return (.version major minor, ← skipComment? rest)
    | _ => none
  else if name = "TAG" then
    let (handle, rest) ← handle? (skipGap rest)
    if !(rest.head?.any isGap) then none
    else
      let (front, rest) ← tagPart? true (skipGap rest)
      if atSpace rest then return (.handle handle front, ← skipComment? rest) else none
  else none

end PodFirewall.Yaml
