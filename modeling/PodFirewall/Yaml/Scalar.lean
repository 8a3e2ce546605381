import PodFirewall.Yaml.Basic
import PodFirewall.Yaml.Cursor

/-!
Reading the scalars of a YAML text.
A scalar in quotes ends with its quote. A plain one ends at a comment or at a
mark that means something where it stands: a colon that is followed by a
blank, and among brackets also a comma or a bracket. Both may go on over
several lines, which are joined. A block ends at a line that is indented less.
-/

namespace PodFirewall.Yaml

/-! ### The blanks between words -/

/-- What stands between two words of a scalar, newest first. -/
inductive Gap where
  | blanks (cs : List Char)
  /-- Ends of lines; the first is missing if it does not count. The blanks
  around them are dropped. -/
  | breaks (first : Option Char) (more : List Char)

namespace Gap

def none : Gap := blanks []

def isEmpty : Gap → Bool
  | blanks [] => true
  | _ => false

def isBroken : Gap → Bool
  | blanks _ => false
  | breaks _ _ => true

def add (c : Char) : Gap → Gap
  | blanks cs => if isBreak c then breaks (some c) [] else blanks (c :: cs)
  | breaks first more => breaks first (if isBreak c then c :: more else more)

/-- What a gap is read as, newest first. One newline becomes a blank, and of
several the first is dropped. -/
def text : Gap → List Char
  | blanks cs => cs
  | breaks (some '\n') [] => [' ']
  | breaks (some '\n') more => more
  | breaks first more => more ++ first.toList

end Gap

/-! ### Quotes -/

/-- The rest of a scalar in single quotes, in which a quote is written twice,
and what follows it. -/
def singleQuoted (done : List Char) (gap : Gap) (p : Place) :
    List Char → Option (String × Cursor)
  | [] => none
  | '\'' :: '\'' :: rest =>
    singleQuoted ('\'' :: (gap.text ++ done)) .none ((p.next '\'').next '\'') rest
  | '\'' :: rest => some (String.ofList (gap.text ++ done).reverse, ⟨rest, p.next '\''⟩)
  | c :: rest =>
    if isSpace c then singleQuoted done (gap.add c) (p.next c) rest
    else if p.column == 0 && atMark (c :: rest) then none
    else singleQuoted (c :: (gap.text ++ done)) .none (p.next c) rest

def escape? : Char → Option Char
  | '0' => some '\x00'
  | 'a' => some '\x07'
  | 'b' => some '\x08'
  | 't' | '\t' => some '\t'
  | 'n' => some '\n'
  | 'v' => some '\x0b'
  | 'f' => some '\x0c'
  | 'r' => some '\r'
  | 'e' => some '\x1b'
  | ' ' => some ' '
  | '"' => some '"'
  | '/' => some '/'
  | '\\' => some '\\'
  | 'N' => some (Char.ofNat 0x85)
  | '_' => some (Char.ofNat 0xA0)
  | 'L' => some (Char.ofNat 0x2028)
  | 'P' => some (Char.ofNat 0x2029)
  | _ => none

def codeLength : Char → Nat
  | 'x' => 2
  | 'u' => 4
  | 'U' => 8
  | _ => 0

def charOf? (n : Nat) : Option Char := if n.isValidChar then some (Char.ofNat n) else none

/-- The rest of a scalar in double quotes, and what follows it. The digits of
an escape that is being read are kept with the number of those to come. -/
def doubleQuoted (done : List Char) (gap : Gap) (digits : List Char) (more : Nat) (p : Place) :
    List Char → Option (String × Cursor)
  | [] => none
  | c :: rest =>
    if 1 < more then doubleQuoted done gap (digits ++ [c]) (more - 1) (p.next c) rest
    else if more = 1 then do
      let code ← Scalar.number? 16 (digits ++ [c])
      doubleQuoted ((← charOf? code) :: done) gap [] 0 (p.next c) rest
    else if isSpace c then doubleQuoted done (gap.add c) [] 0 (p.next c) rest
    else if p.column == 0 && atMark (c :: rest) then none
    else if c = '"' then some (String.ofList (gap.text ++ done).reverse, ⟨rest, p.next c⟩)
    else
      let done := gap.text ++ done
      match c, rest with
      | '\\', e :: rest =>
        -- an escaped end of line does not count
        if isBreak e then doubleQuoted done (.breaks none []) [] 0 (p.next e) rest
        else
          match escape? e with
          | some r => doubleQuoted (r :: done) .none [] 0 ((p.next c).next e) rest
          | none =>
            if codeLength e = 0 then none
            else doubleQuoted done .none [] (codeLength e) ((p.next c).next e) rest
      | _, rest => doubleQuoted (c :: done) .none [] 0 (p.next c) rest

/-! ### Plain scalars -/

def flowMarks : String := ",[]\x7b\x7d"

def mayStart (inFlow : Bool) : List Char → Bool
  | [] => false
  | c :: rest =>
    if c == '-' then !(rest.head?.any isGap)
    else if c == '?' || c == ':' then !inFlow && !atSpace rest
    else !(isSpace c || atAny ",[]\x7b\x7d#&*!|>'\"%@\x60" [c])

/-- Whether a plain scalar ends before these characters, wherever they
stand. -/
def endsPlain (inFlow : Bool) : List Char → Bool
  | ':' :: rest => atSpace rest
  | cs => inFlow && atAny flowMarks cs

/-- Whether a plain scalar ends before these characters if they start a
word. -/
def endsBetweenWords (inFlow : Bool) (indent : Nat) (p : Place) (cs : List Char) : Bool :=
  cs.head? = some '#' || (!inFlow && p.column < indent) || (p.column == 0 && atMark cs)

/-- The rest of a plain scalar, and what follows it and the gap behind it, with
whether a line ends in that gap. Tabs must not take part in the indentation,
and no mark may follow a colon directly among brackets. -/
def plainFrom (inFlow : Bool) (indent : Nat) (done : List Char) (gap : Gap) (p : Place) :
    List Char → Option (String × Bool × Cursor)
  | [] => some (String.ofList done.reverse, gap.isBroken, ⟨[], p⟩)
  | c :: rest =>
    if isSpace c then
      if c == '\t' && gap.isBroken && p.column < indent then none
      else plainFrom inFlow indent done (gap.add c) (p.next c) rest
    else if endsPlain inFlow (c :: rest) ||
        (!gap.isEmpty && endsBetweenWords inFlow indent p (c :: rest)) then
      some (String.ofList done.reverse, gap.isBroken, ⟨c :: rest, p⟩)
    else if inFlow && c == ':' && atAny ",?[]\x7b\x7d" rest then none
    else plainFrom inFlow indent (c :: (gap.text ++ done)) .none (p.next c) rest

/-! ### Blocks -/

/-- What becomes of the ends of lines at the end of a block. -/
inductive Chomping where
  | strip
  /-- The first is kept. -/
  | clip
  | keep
  deriving DecidableEq

def takeSign : List Char → Option Chomping × List Char
  | '+' :: rest => (some .keep, rest)
  | '-' :: rest => (some .strip, rest)
  | cs => (none, cs)

def takeDigit : List Char → Option Nat × List Char
  | [] => (none, [])
  | c :: rest => if c.isDigit then (some (Scalar.digitValue c), rest) else (none, c :: rest)

/-- The chomping and the indentation that the first line of a block asks for,
and the end of that line. A sign and a digit may come in any order. -/
def blockHeader? (cs : List Char) : Option (Chomping × Option Nat × List Char) := do
  let (before, cs) := takeSign cs
  let (digit, cs) := takeDigit cs
  let (behind, cs) := if before.isNone && digit.isSome then takeSign cs else (none, cs)
  if digit = some 0 then none
  else return ((before.or behind).getD .clip, digit, ← skipComment? cs)

/-- The greatest number of spaces before the first line with text and within
the empty lines before it. No tab may follow them. -/
def leadingSpaces? (most column : Nat) : List Char → Option Nat
  | [] => some (max most column)
  | c :: rest =>
    if c == ' ' then leadingSpaces? most (column + 1) rest
    else if c == '\t' then none
    else if isBreak c then leadingSpaces? (max most column) 0 rest
    else some (max most column)

/-- The text of a block that has been read so far, newest first. -/
structure BlockText where
  done : List Char
  /-- The end of the last line with text. -/
  first : Option Char
  /-- The ends of the empty lines behind it. -/
  more : List Char
  /-- Whether the last line with text starts with a blank. -/
  wasGap : Bool

namespace BlockText

def empty : BlockText := ⟨[], none, [], false⟩

def addBreak (t : BlockText) (c : Char) : BlockText := { t with more := c :: t.more }

/-- Adds a line with text. Two lines that do not start with a blank are joined
if lines are folded. -/
def addLine (folds : Bool) (t : BlockText) (line : List Char) (ending : Option Char) :
    BlockText :=
  let isGapLine := line.head?.any isGap
  let between :=
    if folds && t.first == some '\n' && !t.wasGap && !isGapLine then
      if t.more.isEmpty then [' '] else t.more
    else t.more ++ t.first.toList
  ⟨line.reverse ++ (between ++ t.done), ending, [], isGapLine⟩

def text (t : BlockText) (chomping : Chomping) : String :=
  let ending :=
    match chomping with
    | .strip => []
    | .clip => t.first.toList
    | .keep => t.more ++ t.first.toList
  String.ofList (ending ++ t.done).reverse

end BlockText

/-- The lines of a block with some indentation, and where it ends. The
characters of a line with text are kept, newest first, until it ends. -/
def blockLines (folds : Bool) (indent : Nat) (t : BlockText) (line : Option (List Char))
    (p : Place) : List Char → Option (BlockText × Cursor)
  | [] => some (line.elim t fun cs => t.addLine folds cs.reverse none, ⟨[], p⟩)
  | c :: rest =>
    match line with
    | some cs =>
      if isBreak c then
        blockLines folds indent (t.addLine folds cs.reverse (some c)) none (p.next c) rest
      else blockLines folds indent t (some (c :: cs)) (p.next c) rest
    | none =>
      if isBreak c then blockLines folds indent (t.addBreak c) none (p.next c) rest
      else if indent ≤ p.column then blockLines folds indent t (some [c]) (p.next c) rest
      else if c == ' ' then blockLines folds indent t none (p.next c) rest
      else if c == '\t' then none
      else some (t, ⟨c :: rest, p⟩)

/-- A block behind its mark, and where it ends, given the least indentation of
what stands here and that of what it stands in. -/
def block? (folds : Bool) (least around : Nat) (p : Place) (cs : List Char) :
    Option (String × Cursor) := do
  let (chomping, digit, cs) ← blockHeader? cs
  match cs with
  | [] => return ("", ⟨[], p⟩)
  | _ :: cs =>
    let indent ←
      match digit with
      | some n => pure (around + n)
      | none => (leadingSpaces? 0 0 cs).map fun n => max (max n least) 1
    let (t, cursor) ← blockLines folds indent .empty none ⟨p.line + 1, 0, 0⟩ cs
    return (t.text chomping, cursor)

end PodFirewall.Yaml
