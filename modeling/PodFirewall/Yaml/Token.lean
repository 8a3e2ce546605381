import PodFirewall.Yaml.Tag

/-!
The marks and words that a YAML text consists of.
Blocks are told by indentation, so a token that starts or ends a block stands
where the indentation grows or shrinks. A key need not be marked as one: it is
found out at its colon, which has to follow in the same line and not too far
behind, and then the mark is put in front of it.
-/

namespace PodFirewall.Yaml

inductive Token where
  | directive (d : Directive)
  | documentStart
  | documentEnd
  /-- The beginning of a sequence whose items have dashes. -/
  | items
  /-- The beginning of a mapping that is indented. -/
  | entries
  /-- The end of either. -/
  | blockEnd
  | openBracket
  | closeBracket
  | openBrace
  | closeBrace
  | comma
  | dash
  | key
  | value
  | aliasOf (name : String)
  | anchor (name : String)
  | tag (t : TagText)
  | scalar (style : ScalarStyle) (text : String)

/-- Where a key may have started. -/
structure KeyStart where
  place : Place
  before : Nat
  /-- Whether nothing but a key may stand there. -/
  isRequired : Bool

structure Reading where
  cursor : Cursor
  /-- What has been read, newest first. -/
  tokens : List Token
  /-- The columns of the blocks that have begun, innermost first. -/
  indents : List Nat
  keyAllowed : Bool
  /-- Where the last key may have started. -/
  keyStart : Option KeyStart
  /-- The last such start around each bracket that is open, innermost first. -/
  around : List (Option KeyStart)

namespace Reading

def start (cs : List Char) : Reading := ⟨.start cs, [], [], true, none, []⟩

def inFlow (r : Reading) : Bool := !r.around.isEmpty

def indent? (r : Reading) : Option Nat := r.indents.head?

/-- The least column of what stands in the innermost block. -/
def innerIndent (r : Reading) : Nat := r.indent?.elim 0 (· + 1)

def emit (r : Reading) (t : Token) : Reading := { r with tokens := t :: r.tokens }

def skip (r : Reading) (n : Nat) : Reading := { r with cursor := r.cursor.drop n }

/-! ### Blocks -/

/-- Begins a block at a column if it is further to the right than the
innermost one, with a token that stands behind a number of others. There are
no blocks among brackets. -/
def beginBlock (r : Reading) (t : Token) (column before : Nat) : Reading :=
  if !r.inFlow && r.innerIndent ≤ column then
    let newer := r.tokens.length - before
    { r with
      indents := column :: r.indents
      tokens := r.tokens.take newer ++ t :: r.tokens.drop newer }
  else r

/-- Ends the blocks that begin further to the right than a column. -/
def endBlocks (r : Reading) (column : Nat) : Reading :=
  if r.inFlow then r
  else
    let ended := r.indents.takeWhile (column < ·)
    { r with
      indents := r.indents.drop ended.length
      tokens := ended.map (fun _ => .blockEnd) ++ r.tokens }

def endAllBlocks (r : Reading) : Reading :=
  if r.inFlow then r
  else { r with indents := [], tokens := r.indents.map (fun _ => .blockEnd) ++ r.tokens }

/-! ### Keys -/

/-- The greatest distance of the colon from the start of its key, in bytes. -/
def maxKeySize : Nat := 1024

/-- A start of a key that may still turn out to be one; `none` if it cannot and
has to. -/
def stillOpen? (p : Place) (start : Option KeyStart) : Option (Option KeyStart) :=
  match start with
  | none => some none
  | some k =>
    if k.place.line < p.line || k.place.size + maxKeySize < p.size then
      if k.isRequired then none else some none
    else some (some k)

def dropOldKeys? (r : Reading) : Option Reading := do
  let p := r.cursor.place
  return { r with
    keyStart := ← stillOpen? p r.keyStart
    around := ← r.around.mapM (stillOpen? p) }

def dropKey? (r : Reading) : Option Reading :=
  if r.keyStart.any (·.isRequired) then none else some { r with keyStart := none }

def noteKey? (r : Reading) : Option Reading := do
  if r.keyAllowed then
    let r ← r.dropKey?
    let p := r.cursor.place
    -- at the column of its block nothing but the next key of a mapping can stand
    let isRequired := !r.inFlow && r.indent? == some p.column
    return { r with keyStart := some ⟨p, r.tokens.length, isRequired⟩ }
  else return r

/-! ### Marks -/

def takeDocumentMark? (r : Reading) (t : Token) : Option Reading := do
  let r ← r.endAllBlocks.dropKey?
  return { (r.emit t).skip 3 with keyAllowed := false }

def takeDirective? (r : Reading) : Option Reading := do
  let r ← r.endAllBlocks.dropKey?
  let (d, rest) ← directive? r.cursor.rest.tail
  let cursor := r.cursor.moveTo rest
  let cursor : Cursor :=
    match rest with
    | [] => cursor
    | c :: rest => ⟨rest, cursor.place.next c⟩
  return { r.emit (.directive d) with cursor, keyAllowed := false }

def openFlow? (r : Reading) (t : Token) : Option Reading := do
  let r ← r.noteKey?
  return { (r.emit t).skip 1 with
    keyStart := none, around := r.keyStart :: r.around, keyAllowed := true }

def closeFlow? (r : Reading) (t : Token) : Option Reading := do
  let r ← r.dropKey?
  -- the value in brackets as a whole may still turn out to be a key
  return { (r.emit t).skip 1 with
    keyStart := r.around.head?.join, around := r.around.tail, keyAllowed := false }

def takeComma? (r : Reading) : Option Reading := do
  let r ← r.dropKey?
  return { (r.emit .comma).skip 1 with keyAllowed := true }

def takeBlockMark? (r : Reading) (t block : Token) (keyBehind : Bool) : Option Reading := do
  if r.inFlow || r.keyAllowed then
    let r ← (r.beginBlock block r.cursor.place.column r.tokens.length).dropKey?
    return { (r.emit t).skip 1 with keyAllowed := keyBehind }
  else none

/-- Takes the colon between a key and its value. If a key has started, it is
marked as one, and another one cannot follow in the line. -/
def takeColon? (r : Reading) : Option Reading :=
  match r.keyStart with
  | some k =>
    -- the mark of the key goes in front of all that was read since it began
    let newer := r.tokens.length - k.before
    let tokens := r.tokens.take newer ++ Token.key :: r.tokens.drop newer
    let r := { r with tokens }.beginBlock .entries k.place.column k.before
    some { (r.emit .value).skip 1 with keyStart := none, keyAllowed := false }
  | none =>
    if r.inFlow || r.keyAllowed then
      let r := r.beginBlock .entries r.cursor.place.column r.tokens.length
      some { (r.emit .value).skip 1 with keyAllowed := !r.inFlow }
    else none

/-! ### Words -/

/-- Takes a word that may start a key, given the token for it, what follows it
and whether another key may start there. -/
def takeWord? (r : Reading) (word : Option (Token × Cursor × Bool)) : Option Reading := do
  let r ← r.noteKey?
  let (t, cursor, keyAllowed) ← word
  return { r.emit t with cursor, keyAllowed }

def wordInLine (r : Reading) (word : Option (Token × List Char)) :
    Option (Token × Cursor × Bool) :=
  word.map fun w => (w.1, r.cursor.moveTo w.2, false)

def quotedWord (word : Option (String × Cursor)) : Option (Token × Cursor × Bool) :=
  word.map fun w => (.scalar .quoted w.1, w.2, false)

/-- A tag has to be followed by a blank, or by a comma among brackets. -/
def tagWord? (r : Reading) (cs : List Char) : Option (Token × List Char) := do
  let (t, rest) ← tag? cs
  if atSpace rest || (r.inFlow && rest.head? == some ',') then some (.tag t, rest) else none

def takeBlock? (r : Reading) (style : ScalarStyle) (cs : List Char) : Option Reading := do
  let r ← r.dropKey?
  let (text, cursor) ←
    block? (style == .folded) r.innerIndent (r.indent?.getD 0) r.cursor.place cs
  return { r.emit (.scalar style text) with cursor, keyAllowed := true }

def take? (r : Reading) (c : Char) (cs : List Char) : Option Reading :=
  let p := r.cursor.place
  let behind := p.next c
  if p.column == 0 && c == '%' then r.takeDirective?
  else if p.column == 0 && atMark (c :: cs) then
    r.takeDocumentMark? (if c == '-' then .documentStart else .documentEnd)
  else if c == '[' then r.openFlow? .openBracket
  else if c == '\x7b' then r.openFlow? .openBrace
  else if c == ']' then r.closeFlow? .closeBracket
  else if c == '\x7d' then r.closeFlow? .closeBrace
  else if c == ',' then r.takeComma?
  else if c == '-' && atSpace cs then r.takeBlockMark? .dash .items true
  else if c == '?' && (r.inFlow || atSpace cs) then r.takeBlockMark? .key .entries !r.inFlow
  else if c == ':' && (r.inFlow || atSpace cs) then r.takeColon?
  else if c == '*' then
    r.takeWord? (r.wordInLine ((anchorName? cs).map fun n => (.aliasOf n.1, n.2)))
  else if c == '&' then
    r.takeWord? (r.wordInLine ((anchorName? cs).map fun n => (.anchor n.1, n.2)))
  else if c == '!' then r.takeWord? (r.wordInLine (r.tagWord? cs))
  else if c == '|' && !r.inFlow then r.takeBlock? .literal cs
  else if c == '>' && !r.inFlow then r.takeBlock? .folded cs
  else if c == '\'' then r.takeWord? (quotedWord (singleQuoted [] .none behind cs))
  else if c == '"' then r.takeWord? (quotedWord (doubleQuoted [] .none [] 0 behind cs))
  else if mayStart r.inFlow (c :: cs) then
    let word := plainFrom r.inFlow r.innerIndent [] .none p (c :: cs)
    r.takeWord? (word.map fun w => (.scalar .plain w.1, w.2.2, w.2.1))
  else none

/-- Skips blanks, comments and ends of lines. Outside of brackets a key may
start in a new line, and where one may start, no tab may stand. -/
def toToken (inFlow : Bool) (inComment keyAllowed : Bool) (p : Place) :
    List Char → Cursor × Bool
  | [] => (⟨[], p⟩, keyAllowed)
  | c :: rest =>
    if isBreak c then toToken inFlow false (keyAllowed || !inFlow) (p.next c) rest
    else if inComment || c == '#' then toToken inFlow true keyAllowed (p.next c) rest
    else if c == ' ' || (c == '\t' && (inFlow || !keyAllowed)) ||
        (c == '\uFEFF' && p.column == 0) then
      toToken inFlow false keyAllowed (p.next c) rest
    else (⟨c :: rest, p⟩, keyAllowed)

def approach? (r : Reading) : Option Reading := do
  let (cursor, keyAllowed) := toToken r.inFlow false r.keyAllowed r.cursor.place r.cursor.rest
  let r ← { r with cursor, keyAllowed }.dropOldKeys?
  return r.endBlocks cursor.place.column

/-- Reads all tokens, of which there are fewer than a given number; `none` for
a text that has something else in it. -/
def all? : Nat → Reading → Option (List Token)
  | 0, _ => none
  | n + 1, r => do
    let r ← r.approach?
    match r.cursor.rest with
    | [] => return (← r.endAllBlocks.dropKey?).tokens.reverse
    | c :: cs => all? n (← r.take? c cs)

end Reading

/-- The marks and words of a text. Each of them has at least one character. -/
def tokens? (cs : List Char) : Option (List Token) :=
  Reading.all? (cs.length + 1) (.start cs)

end PodFirewall.Yaml
