import PodFirewall.Yaml.Token

/-!
The tree that the marks and words of a YAML text describe.
Tags are written out, but aliases still go by the names of anchors. Where a
value is left out, there is the empty plain scalar.
-/

namespace PodFirewall.Yaml

/-- A value as it stands in the text, with its anchor if it has one. -/
inductive Node where
  | scalar (anchor : Option String) (s : Scalar)
  | seq (anchor : Option String) (items : List Node)
  | map (anchor : Option String) (entries : List (Node × Node))
  | aliasOf (name : String)
  deriving Inhabited

namespace Node

def nothing : Node := scalar none .nothing

/-! ### Anchors and tags -/

/-- What the handles stand for that a document does not define. -/
def commonHandles : List (String × String) := [("!", "!"), ("!!", "tag:yaml.org,2002:")]

def tagOf? (handles : List (String × String)) (t : TagText) : Option String :=
  if t.handle.isEmpty then some t.suffix
  else
    ((handles ++ commonHandles).find? fun h => h.1 == t.handle).map fun h => h.2 ++ t.suffix

/-- The anchor and the tag in front of a value, in any order, and what
follows. -/
def properties? (handles : List (String × String)) :
    List Token → Option (Option String × Option String × List Token)
  | .anchor a :: .tag t :: rest | .tag t :: .anchor a :: rest =>
    (tagOf? handles t).map fun tag => (some a, some tag, rest)
  | .anchor a :: rest => some (some a, none, rest)
  | .tag t :: rest => (tagOf? handles t).map fun tag => (none, some tag, rest)
  | rest => some (none, none, rest)

/-- A scalar with its tag. The tag that is a mere exclamation mark counts for
nothing, if there is something to be tagged. -/
def tagged (tag : Option String) (style : ScalarStyle) (text : String) : Scalar :=
  ⟨style, if tag = some "!" then none else tag, text⟩

/-! ### Values left out -/

def endsItem : List Token → Bool
  | .dash :: _ | .blockEnd :: _ => true
  | _ => false

def endsFlatItem : List Token → Bool
  | .dash :: _ | .key :: _ | .value :: _ | .blockEnd :: _ => true
  | _ => false

def endsEntry : List Token → Bool
  | .key :: _ | .value :: _ | .blockEnd :: _ => true
  | _ => false

def endsBracketed : List Token → Bool
  | .comma :: _ | .closeBracket :: _ => true
  | _ => false

def endsBraced : List Token → Bool
  | .comma :: _ | .closeBrace :: _ => true
  | _ => false

def endsFlowKey (ends : List Token → Bool) : List Token → Bool
  | .value :: _ => true
  | ts => ends ts

/-! ### Values -/

section

variable (handles : List (String × String))

mutual

/-- A value, and what follows it. Outside of brackets it may be a block, and as
part of a mapping also a sequence that is not indented. -/
def value? (inBlock inMapping : Bool) : Nat → List Token → Option (Node × List Token)
  | 0, _ => none
  | _ + 1, .aliasOf name :: rest => some (aliasOf name, rest)
  | n + 1, ts => do
    let (anchor, tag, ts) ← properties? handles ts
    match ts with
    | .scalar style text :: rest => some (scalar anchor (tagged tag style text), rest)
    | .openBracket :: rest => bracketed? anchor true [] n rest
    | .openBrace :: rest => braced? anchor true [] n rest
    | .items :: rest =>
      if inBlock then items? anchor [] n rest else unwritten? anchor tag ts
    | .entries :: rest =>
      if inBlock then entries? anchor [] n rest else unwritten? anchor tag ts
    | .dash :: _ =>
      if inMapping then flatItems? anchor [] n ts else unwritten? anchor tag ts
    | ts => unwritten? anchor tag ts

/-- A value of which only an anchor or a tag is written. -/
def unwritten? (anchor tag : Option String) (ts : List Token) : Option (Node × List Token) :=
  if anchor.isSome || tag.isSome then some (scalar anchor ⟨.plain, tag, ""⟩, ts) else none

def items? (anchor : Option String) (done : List Node) :
    Nat → List Token → Option (Node × List Token)
  | 0, _ => none
  | n + 1, .dash :: rest => do
    let (item, rest) ← if endsItem rest then some (nothing, rest) else value? true false n rest
    items? anchor (item :: done) n rest
  | _ + 1, .blockEnd :: rest => some (seq anchor done.reverse, rest)
  | _ + 1, _ => none

def flatItems? (anchor : Option String) (done : List Node) :
    Nat → List Token → Option (Node × List Token)
  | 0, _ => none
  | n + 1, .dash :: rest => do
    let (item, rest) ←
      if endsFlatItem rest then some (nothing, rest) else value? true false n rest
    flatItems? anchor (item :: done) n rest
  | _ + 1, ts => some (seq anchor done.reverse, ts)

def entries? (anchor : Option String) (done : List (Node × Node)) :
    Nat → List Token → Option (Node × List Token)
  | 0, _ => none
  | n + 1, .key :: rest => do
    let (key, rest) ← if endsEntry rest then some (nothing, rest) else value? true true n rest
    let (value, rest) ←
      match rest with
      | .value :: rest => if endsEntry rest then some (nothing, rest) else value? true true n rest
      | rest => some (nothing, rest)
    entries? anchor ((key, value) :: done) n rest
  | _ + 1, .blockEnd :: rest => some (map anchor done.reverse, rest)
  | _ + 1, _ => none

def flowValue? (ends : List Token → Bool) : Nat → List Token → Option (Node × List Token)
  | 0, _ => none
  | n + 1, .value :: rest => if ends rest then some (nothing, rest) else value? false false n rest
  | _ + 1, rest => some (nothing, rest)

/-- The rest of a sequence in brackets, and what follows it. An item may be a
mapping with a single entry. If its key is left out, the mark behind it is
passed over. -/
def bracketed? (anchor : Option String) (isFirst : Bool) (done : List Node) :
    Nat → List Token → Option (Node × List Token)
  | 0, _ => none
  | _ + 1, .closeBracket :: rest => some (seq anchor done.reverse, rest)
  | n + 1, ts => do
    let ts ←
      match isFirst, ts with
      | true, ts => some ts
      | false, .comma :: rest => some rest
      | false, _ => none
    match ts with
    | .closeBracket :: rest => some (seq anchor done.reverse, rest)
    | .key :: rest =>
      let (key, rest) ←
        if endsFlowKey endsBracketed rest then some (nothing, rest.tail)
        else value? false false n rest
      let (value, rest) ← flowValue? endsBracketed n rest
      bracketed? anchor false (map none [(key, value)] :: done) n rest
    | ts =>
      let (item, rest) ← value? false false n ts
      bracketed? anchor false (item :: done) n rest

/-- The rest of a mapping in braces, and what follows it. A key that is not
marked as one has no value. -/
def braced? (anchor : Option String) (isFirst : Bool) (done : List (Node × Node)) :
    Nat → List Token → Option (Node × List Token)
  | 0, _ => none
  | _ + 1, .closeBrace :: rest => some (map anchor done.reverse, rest)
  | n + 1, ts => do
    let ts ←
      match isFirst, ts with
      | true, ts => some ts
      | false, .comma :: rest => some rest
      | false, _ => none
    match ts with
    | .closeBrace :: rest => some (map anchor done.reverse, rest)
    | .key :: rest =>
      let (key, rest) ←
        if endsFlowKey endsBraced rest then some (nothing, rest) else value? false false n rest
      let (value, rest) ← flowValue? endsBraced n rest
      braced? anchor false ((key, value) :: done) n rest
    | ts =>
      let (key, rest) ← value? false false n ts
      braced? anchor false ((key, nothing) :: done) n rest

end

end

/-! ### Documents -/

/-- What a document says of its handles; `none` if it says something twice, or
asks for a version that is not known. -/
def handles? (directives : List Directive) : Option (List (String × String)) :=
  let versions := directives.filterMap fun
    | .version major minor => some (major, minor)
    | .handle _ _ => none
  let handles := directives.filterMap fun
    | .handle handle front => some (handle, front)
    | .version _ _ => none
  let known := versions.all fun v => v == (1, 1) || v == (1, 2)
  if known && versions.length ≤ 1 && (handles.map (·.1)).Nodup then some handles else none

def directives : List Token → List Directive × List Token
  | .directive d :: rest =>
    let (ds, rest) := directives rest
    (d :: ds, rest)
  | ts => ([], ts)

def content? (handles : List (String × String)) (ts : List Token) :
    Option (Node × List Token) :=
  match ts with
  | [] | .documentEnd :: _ | .documentStart :: _ | .directive _ :: _ => some (nothing, ts)
  | ts => value? handles true false (3 * ts.length + 1) ts

/-- The value of the only document of a text; there need not be any. -/
def ofTokens? (ts : List Token) : Option Node := do
  let (node, rest) ←
    match ts with
    | [] => some (nothing, [])
    | .directive _ :: _ | .documentStart :: _ =>
      match directives ts with
      | (ds, .documentStart :: rest) => content? (← handles? ds) rest
      | _ => none
    | ts => value? [] true false (3 * ts.length + 1) ts
  let isEnd : Token → Bool
    | .documentEnd => true
    | _ => false
  if rest.all isEnd then some node else none

end Node

end PodFirewall.Yaml
